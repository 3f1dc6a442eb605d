import Incognita.Proofs.Reading.Sound

namespace Incognita

/-!
# Tree — the shape of what is read

Two facts about a tree that reading it without faults settles, and that running it relies on.

* `Expr.Complete`, `Stmt.Complete`, `Block.Complete`, `Program.Complete` — no part is missing
  but the value of a bare return and the alternative of a choice, and no integer is without a
  value;
* `Expr.strayBreaks`, `Stmt.strayBreaks`, `Block.strayBreaks`, `Program.strayBreaks` — how many
  breaks stand in no loop of their function.  The condition of a loop is outside of it;
* `Parser.Reads.complete`, `Parser.Reads.strayBreaks` — what is read by the rules is complete,
  and the rules count its stray breaks;
* `complete_of_parseTokens`, `strayBreaks_of_parseTokens` — the same for a source.
-/

/-! ### Complete trees -/

mutual

/-- No part of the expression is missing. -/
def Expr.Complete : Expr → Prop
  | .missing => False
  | .ident _ | .bool _ _ | .str _ _ => True
  | .int _ v => v ≠ none
  | .unary _ _ e => e.Complete
  | .binary _ l _ r => l.Complete ∧ r.Complete
  | .choice _ c a b => c.Complete ∧ a.Complete ∧ (b = .missing ∨ b.Complete)
  | .loop _ c b => c.Complete ∧ b.Complete
  | .fn _ xs b => none ∉ xs ∧ b.Complete
  | .call _ f as => f.Complete ∧ Expr.CompleteAll as

/-- No part of the expressions is missing. -/
def Expr.CompleteAll : List Expr → Prop
  | [] => True
  | e :: es => e.Complete ∧ Expr.CompleteAll es

/-- No part of the statement is missing. -/
def Stmt.Complete : Stmt → Prop
  | .missing => False
  | .bind _ name e => name ≠ none ∧ e.Complete
  | .ret _ e => e = .missing ∨ e.Complete
  | .brk _ => True
  | .expr _ e => e.Complete
  | .block b => b.Complete

/-- No part of the statements is missing. -/
def Stmt.CompleteAll : List Stmt → Prop
  | [] => True
  | s :: ss => s.Complete ∧ Stmt.CompleteAll ss

/-- No part of the block is missing. -/
def Block.Complete : Block → Prop
  | .missing => False
  | .mk _ ss => Stmt.CompleteAll ss

end

/-- No part of the program is missing. -/
def Program.Complete (p : Program) : Prop := Stmt.CompleteAll p.stmts

/-! ### Stray breaks -/

mutual

/-- The breaks of an expression that stand in no loop of their function, where `inLoop` tells
    whether the expression itself stands in one. -/
def Expr.strayBreaks (inLoop : Bool) : Expr → Nat
  | .missing | .ident _ | .int _ _ | .bool _ _ | .str _ _ => 0
  | .unary _ _ e => e.strayBreaks inLoop
  | .binary _ l _ r => l.strayBreaks inLoop + r.strayBreaks inLoop
  | .choice _ c a b => c.strayBreaks inLoop + a.strayBreaks inLoop + b.strayBreaks inLoop
  | .loop _ c b => c.strayBreaks inLoop + b.strayBreaks true
  | .fn _ _ b => b.strayBreaks false
  | .call _ f as => f.strayBreaks inLoop + Expr.strayBreaksAll inLoop as

/-- The stray breaks of expressions. -/
def Expr.strayBreaksAll (inLoop : Bool) : List Expr → Nat
  | [] => 0
  | e :: es => e.strayBreaks inLoop + Expr.strayBreaksAll inLoop es

/-- The stray breaks of a statement. -/
def Stmt.strayBreaks (inLoop : Bool) : Stmt → Nat
  | .missing => 0
  | .bind _ _ e | .ret _ e | .expr _ e => e.strayBreaks inLoop
  | .brk _ => if inLoop then 0 else 1
  | .block b => b.strayBreaks inLoop

/-- The stray breaks of statements. -/
def Stmt.strayBreaksAll (inLoop : Bool) : List Stmt → Nat
  | [] => 0
  | s :: ss => s.strayBreaks inLoop + Stmt.strayBreaksAll inLoop ss

/-- The stray breaks of a block. -/
def Block.strayBreaks (inLoop : Bool) : Block → Nat
  | .missing => 0
  | .mk _ ss => Stmt.strayBreaksAll inLoop ss

end

/-- The stray breaks of a program. -/
def Program.strayBreaks (p : Program) : Nat := Stmt.strayBreaksAll false p.stmts

namespace Parser

/-! ### What is read is complete -/

/-- What a call reads is complete, as far as what it got is. -/
def Task.Completes : (k : Task) → k.Result → Prop
  | .expr .., e | .operand .., e => e.Complete
  | .operators _ _ left _, e => left.Complete → e.Complete
  | .choice _ _ cond _, e => cond.Complete → e.Complete
  | .args .., es | .moreArgs .., es => ∀ es' ∈ es, Expr.CompleteAll es'
  | .condition .., c => ∀ c' ∈ c, c'.Complete
  | .block .., b => b.Complete
  | .body .., ss => Stmt.CompleteAll ss
  | .stmt .., s => ∀ s' ∈ s, s'.Complete

/-- A token that is an expression by itself lacks nothing; an integer has its value. -/
theorem leaf_complete {t : Token} {e : Expr} (h : leaf? t = some e) : e.Complete := by
  cases hk : t.kind <;> simp only [leaf?, hk, reduceCtorEq, Option.some.injEq] at h
  case int =>
    obtain ⟨n, -, rfl⟩ := Option.map_eq_some_iff.1 h
    simp [Expr.Complete]
  all_goals
    rw [← h]
    simp [Expr.Complete]

/-- **What a call reads without faults is complete**, by induction on the reading. -/
theorem Reads.complete {k : Task} {v : k.Result} {rest : List Token} {n : Nat}
    (h : Reads k v rest n) : k.Completes v := by
  induction h with
  | expr _ _ _ ihl ihw => exact ihw ihl
  | leaf h => exact leaf_complete h
  | unary _ _ ih | group _ _ _ ih => exact ih
  | choose _ _ _ ihc ihw => exact ihw (ihc _ rfl)
  | loop _ _ _ ihc ihb => exact ⟨ihc _ rfl, ihb⟩
  | fn _ _ _ _ ihb => exact ⟨by simp, ihb⟩
  | stop _ => exact id
  | call _ _ _ _ iha ihw => exact fun hl => ihw ⟨hl, iha _ rfl⟩
  | binary _ _ _ _ ihr ihw => exact fun hl => ihw ⟨hl, ihr⟩
  | noArgs | lastArg => rintro es ⟨⟩; trivial
  | someArgs _ _ ihe ihes | nextArg _ _ _ ihe ihes => rintro es ⟨⟩; exact ⟨ihe, ihes _ rfl⟩
  | condition _ _ _ ih => rintro c ⟨⟩; exact ih
  -- An alternative that is not written is allowed to be missing.
  | oneWay _ _ iha => exact fun hc => ⟨hc, iha, .inl rfl⟩
  | twoWays _ _ _ iha ihb => exact fun hc => ⟨hc, iha, .inr ihb⟩
  | block _ _ ih => exact ih
  | close => trivial
  | next _ _ ihs ihss => exact ⟨ihs _ rfl, ihss⟩
  | bind _ _ _ _ ih => rintro s ⟨⟩; exact ⟨by simp, ih⟩
  -- So is the value of a bare return.
  | bareReturn => rintro s ⟨⟩; exact .inl rfl
  | valueReturn _ _ ih => rintro s ⟨⟩; exact .inr ih
  | brk => rintro s ⟨⟩; trivial
  | exprStmt _ ih => rintro s ⟨⟩; exact ih

/-- The same for statements one after the other. -/
theorem ReadsAll.complete {ts : List Token} {ss : List Stmt} {n : Nat} (h : ReadsAll ts ss n) :
    Stmt.CompleteAll ss := by
  induction h with
  | nil => trivial
  | cons hs _ ih => exact ⟨hs.complete _ rfl, ih⟩

/-! ### The rules count the stray breaks -/

/-- How many stray breaks the call adds to those of what it got, where it stands in a loop
    when `loops` is not zero. -/
def Task.Counts : (k : Task) → k.Result → Nat → Prop
  | .expr loops _ _, e, n | .operand loops _ _, e, n => e.strayBreaks (loops != 0) = n
  | .operators loops _ left _, e, n =>
    e.strayBreaks (loops != 0) = left.strayBreaks (loops != 0) + n
  | .choice loops _ cond _, e, n =>
    e.strayBreaks (loops != 0) = cond.strayBreaks (loops != 0) + n
  | .args loops _, es, n | .moreArgs loops _, es, n =>
    ∀ es' ∈ es, Expr.strayBreaksAll (loops != 0) es' = n
  | .condition loops _, c, n => ∀ c' ∈ c, Expr.strayBreaks (loops != 0) c' = n
  | .block loops _, b, n => b.strayBreaks (loops != 0) = n
  | .body loops _, ss, n => Stmt.strayBreaksAll (loops != 0) ss = n
  | .stmt loops _ _, s, n => ∀ s' ∈ s, Stmt.strayBreaks (loops != 0) s' = n

/-- A token that is an expression by itself holds no break. -/
theorem leaf_strayBreaks {t : Token} {e : Expr} (h : leaf? t = some e) (inLoop : Bool) :
    e.strayBreaks inLoop = 0 := by
  cases hk : t.kind <;> simp only [leaf?, hk, reduceCtorEq, Option.some.injEq] at h
  case int =>
    obtain ⟨n, -, rfl⟩ := Option.map_eq_some_iff.1 h
    simp [Expr.strayBreaks]
  all_goals
    rw [← h]
    simp [Expr.strayBreaks]

/-- **The stray breaks that a call reports are those of what it reads.** -/
theorem Reads.strayBreaks {k : Task} {v : k.Result} {rest : List Token} {n : Nat}
    (h : Reads k v rest n) : k.Counts v n := by
  induction h with
  | expr _ _ _ ihl ihw =>
    simp only [Task.Counts] at ihl ihw ⊢
    rw [ihw, ihl]
  | leaf h => exact leaf_strayBreaks h _
  | unary _ _ ih =>
    simp only [Task.Counts] at ih ⊢
    rw [Expr.strayBreaks, ih]
  | group _ _ _ ih => exact ih
  | choose _ _ _ ihc ihw =>
    simp only [Task.Counts] at ihc ihw ⊢
    rw [ihw, ihc _ rfl]
  -- The body stands in a loop, since the number of loops around it is not zero.
  | loop _ _ _ ihc ihb =>
    simp only [Task.Counts] at ihc ihb ⊢
    rw [Expr.strayBreaks, ihc _ rfl]
    exact congrArg _ ihb
  | fn _ _ _ _ ihb =>
    simp only [Task.Counts] at ihb ⊢
    rw [Expr.strayBreaks]
    exact ihb
  | stop _ => simp [Task.Counts]
  | call _ _ _ _ iha ihw =>
    simp only [Task.Counts] at iha ihw ⊢
    rw [ihw, Expr.strayBreaks, iha _ rfl]
    omega
  | binary _ _ _ _ ihr ihw =>
    simp only [Task.Counts] at ihr ihw ⊢
    rw [ihw, Expr.strayBreaks, ihr]
    omega
  | noArgs | lastArg =>
    rintro es ⟨⟩
    rw [Expr.strayBreaksAll]
  | someArgs _ _ ihe ihes | nextArg _ _ _ ihe ihes =>
    rintro es ⟨⟩
    rw [Expr.strayBreaksAll, ihe, ihes _ rfl]
  | condition _ _ _ ih => rintro c ⟨⟩; exact ih
  | oneWay _ _ iha =>
    simp only [Task.Counts] at iha ⊢
    simp only [Expr.strayBreaks, iha, Block.strayBreaks, Nat.add_zero]
  | twoWays _ _ _ iha ihb =>
    simp only [Task.Counts] at iha ihb ⊢
    rw [Expr.strayBreaks, iha, ihb]
    omega
  | block _ _ ih => exact ih
  | close => rfl
  | next _ _ ihs ihss =>
    simp only [Task.Counts] at ihs ihss ⊢
    rw [Stmt.strayBreaksAll, ihs _ rfl, ihss]
  | bind _ _ _ _ ih | valueReturn _ _ ih | exprStmt _ ih => rintro s ⟨⟩; exact ih
  | bareReturn => rintro s ⟨⟩; rfl
  -- This is the only rule that counts.
  | @brk loops _ _ _ =>
    rintro s ⟨⟩
    cases loops <;> rfl

/-- The same for the statements of a program, which stand in no loop. -/
theorem ReadsAll.strayBreaks {ts : List Token} {ss : List Stmt} {n : Nat}
    (h : ReadsAll ts ss n) : Stmt.strayBreaksAll false ss = n := by
  induction h with
  | nil => rfl
  | cons hs _ ih =>
    have hfirst : Stmt.strayBreaks false _ = _ := hs.strayBreaks _ rfl
    rw [Stmt.strayBreaksAll, ih, hfirst]

end Parser

/-! ### Sources -/

/-- **A source whose faults are all stray breaks gives a complete tree.**  A stray break is reported
    where it stands, but the statement is read to its end and kept. -/
theorem complete_of_parseTokens {ts : List Token}
    (h : ∀ d ∈ (parseTokens ts).diagnostics, d = .strayBreak) :
    (parseTokens ts).program.Complete :=
  (readsAll_of_parseTokens h).complete

/-- **Stray breaks are reported one by one**: when there are no other faults, as many are
    reported as the tree has. -/
theorem strayBreaks_of_parseTokens {ts : List Token}
    (h : ∀ d ∈ (parseTokens ts).diagnostics, d = .strayBreak) :
    (parseTokens ts).program.strayBreaks = (parseTokens ts).diagnostics.length :=
  (readsAll_of_parseTokens h).strayBreaks

end Incognita
