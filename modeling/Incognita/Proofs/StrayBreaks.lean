import Incognita.Proofs.Shape

namespace Incognita

/-!
# Tree — where breaks stand

The reader counts the loops around it while it goes through a source, and reports a break where the
count is zero.  Here the breaks are looked for in the tree that it gives, each with all that it
stands in.  A loop that a break could leave is one that it stands in the body of, with no function
in between.

* `Enclosure` — the body of a loop or of a function, around a break;
* `Expr.breaks`, `Stmt.breaks`, `Block.breaks`, `Program.breaks` — the breaks of a tree, each with
  its enclosures from inside out;
* `Stray` — there is no loop to leave;
* `Expr.strayBreaks_eq`, `Stmt.strayBreaks_eq`, `Block.strayBreaks_eq` — the breaks that
  `Expr.strayBreaks` counts are these;
* `Diagnostic.message_eq_iff` — no other fault is worded like a stray break;
* `strayBreaks_reported` — a source with no other faults has one fault for each stray break.
-/

/-- What a break may stand in. -/
inductive Enclosure where
  /-- The body of a loop.  The condition is outside of it. -/
  | loop
  /-- The body of a function. -/
  | function
  deriving DecidableEq, Repr

/-! ### The breaks of a tree -/

mutual

/-- The breaks of an expression, in the order in which they stand there.  Each is given by its
    enclosures from inside out, where those of the expression itself are `around`. -/
def Expr.breaks (around : List Enclosure) : Expr → List (List Enclosure)
  | .missing | .ident _ | .int _ _ | .bool _ _ | .str _ _ => []
  | .unary _ _ e => e.breaks around
  | .binary _ l _ r => l.breaks around ++ r.breaks around
  | .choice _ c a b => c.breaks around ++ a.breaks around ++ b.breaks around
  | .loop _ c b => c.breaks around ++ b.breaks (.loop :: around)
  | .fn _ _ b => b.breaks (.function :: around)
  | .call _ f as => f.breaks around ++ Expr.breaksAll around as

/-- The breaks of expressions. -/
def Expr.breaksAll (around : List Enclosure) : List Expr → List (List Enclosure)
  | [] => []
  | e :: es => e.breaks around ++ Expr.breaksAll around es

/-- The breaks of a statement. -/
def Stmt.breaks (around : List Enclosure) : Stmt → List (List Enclosure)
  | .missing => []
  | .bind _ _ e | .ret _ e | .expr _ e => e.breaks around
  | .brk _ => [around]
  | .block b => b.breaks around

/-- The breaks of statements. -/
def Stmt.breaksAll (around : List Enclosure) : List Stmt → List (List Enclosure)
  | [] => []
  | s :: ss => s.breaks around ++ Stmt.breaksAll around ss

/-- The breaks of a block. -/
def Block.breaks (around : List Enclosure) : Block → List (List Enclosure)
  | .missing => []
  | .mk _ ss => Stmt.breaksAll around ss

end

/-- The breaks of a program, each with its enclosures from inside out. -/
def Program.breaks (p : Program) : List (List Enclosure) := Stmt.breaksAll [] p.stmts

/-! ### Breaks without a loop -/

/-- Of the loops that a break stands in, none is free of functions in between. -/
def Stray (around : List Enclosure) : Prop :=
  ∀ inner outer, around = inner ++ .loop :: outer → .function ∈ inner

/-- The innermost enclosure is a loop. -/
def Enclosure.inLoop : List Enclosure → Bool
  | .loop :: _ => true
  | _ => false

/-- The innermost enclosure decides, since it is in between all others and the break. -/
theorem stray_iff {around : List Enclosure} : Stray around ↔ Enclosure.inLoop around = false := by
  constructor
  · intro h
    cases around with
    | nil => rfl
    | cons x outer =>
      cases x with
      | function => rfl
      | loop => exact absurd (h [] outer rfl) (by simp)
  · rintro h inner outer rfl
    cases inner with
    | nil => exact absurd h (by simp [Enclosure.inLoop])
    | cons x inner =>
      cases x with
      | function => exact List.mem_cons_self
      | loop => exact absurd h (by simp [Enclosure.inLoop])

instance : DecidablePred Stray := fun _ => decidable_of_iff _ stray_iff.symm

/-! ### The count of the reader -/

open Enclosure (inLoop)

/-- A break is counted unless its innermost enclosure is a loop. -/
theorem countP_stray_singleton (around : List Enclosure) :
    [around].countP (Stray ·) = if inLoop around then 0 else 1 := by
  simp only [List.countP_singleton, stray_iff]
  cases inLoop around <;> rfl

mutual

/-- **The stray breaks of an expression are those of its breaks that are stray.**  The one counts
    with a flag for the innermost enclosure, and the other looks at all enclosures: a function cuts
    loops off in both. -/
theorem Expr.strayBreaks_eq (around : List Enclosure) : (e : Expr) →
    e.strayBreaks (inLoop around) = (e.breaks around).countP (Stray ·)
  | .missing | .ident _ | .int _ _ | .bool _ _ | .str _ _ => by
    simp [Expr.strayBreaks, Expr.breaks]
  | .unary _ _ e => by
    rw [Expr.strayBreaks, Expr.breaks, Expr.strayBreaks_eq around e]
  | .binary _ l _ r => by
    rw [Expr.strayBreaks, Expr.breaks, List.countP_append, Expr.strayBreaks_eq around l,
      Expr.strayBreaks_eq around r]
  | .choice _ c a b => by
    rw [Expr.strayBreaks, Expr.breaks, List.countP_append, List.countP_append,
      Expr.strayBreaks_eq around c, Block.strayBreaks_eq around a, Block.strayBreaks_eq around b]
  | .loop _ c b => by
    -- Only the body counts as inside of the loop.
    have hbody := Block.strayBreaks_eq (.loop :: around) b
    rw [Expr.strayBreaks, Expr.breaks, List.countP_append, Expr.strayBreaks_eq around c, ← hbody]
    rfl
  | .fn _ _ b => Block.strayBreaks_eq (.function :: around) b
  | .call _ f as => by
    rw [Expr.strayBreaks, Expr.breaks, List.countP_append, Expr.strayBreaks_eq around f,
      Expr.strayBreaksAll_eq around as]

/-- The same for the arguments of a call. -/
theorem Expr.strayBreaksAll_eq (around : List Enclosure) : (es : List Expr) →
    Expr.strayBreaksAll (inLoop around) es = (Expr.breaksAll around es).countP (Stray ·)
  | [] => rfl
  | e :: es => by
    rw [Expr.strayBreaksAll, Expr.breaksAll, List.countP_append, Expr.strayBreaks_eq around e,
      Expr.strayBreaksAll_eq around es]

/-- The same for a statement. -/
theorem Stmt.strayBreaks_eq (around : List Enclosure) : (s : Stmt) →
    s.strayBreaks (inLoop around) = (s.breaks around).countP (Stray ·)
  | .missing => rfl
  | .bind _ _ e | .ret _ e | .expr _ e => Expr.strayBreaks_eq around e
  | .brk _ => (countP_stray_singleton around).symm
  | .block b => Block.strayBreaks_eq around b

/-- The same for statements one after the other. -/
theorem Stmt.strayBreaksAll_eq (around : List Enclosure) : (ss : List Stmt) →
    Stmt.strayBreaksAll (inLoop around) ss = (Stmt.breaksAll around ss).countP (Stray ·)
  | [] => rfl
  | s :: ss => by
    rw [Stmt.strayBreaksAll, Stmt.breaksAll, List.countP_append, Stmt.strayBreaks_eq around s,
      Stmt.strayBreaksAll_eq around ss]

/-- The same for a block. -/
theorem Block.strayBreaks_eq (around : List Enclosure) : (b : Block) →
    b.strayBreaks (inLoop around) = (b.breaks around).countP (Stray ·)
  | .missing => rfl
  | .mk _ ss => Stmt.strayBreaksAll_eq around ss

end

/-! ### Sources -/

/-- No other fault is worded with a quote in front. -/
theorem Diagnostic.head?_message {d : Diagnostic} (h : d ≠ .strayBreak) :
    ∃ c ∈ ['t', 'n', 's'], d.message.toList.head? = some c := by
  have happend : ∀ {s t : String} {c : Char}, s.toList.head? = some c →
      (s ++ t).toList.head? = some c := by
    intro s t c hc
    rw [String.toList_append, List.head?_append, hc]
    rfl
  cases d with
  | strayBreak => exact absurd rfl h
  | unexpected expected found =>
    exact ⟨'t', by decide, happend (happend (happend (by decide)))⟩
  | noRule literal => exact ⟨'n', by decide, happend (by decide)⟩
  | badInteger literal => exact ⟨'n', by decide, happend (by decide)⟩
  | unclosedBlock => exact ⟨'s', by decide, by decide⟩

/-- The wording tells stray breaks from all other faults. -/
theorem Diagnostic.message_eq_iff {d : Diagnostic} :
    d.message = "'termina' solo puede usarse dentro de un ciclo" ↔ d = .strayBreak := by
  constructor
  · intro h
    apply Classical.byContradiction
    intro hd
    obtain ⟨c, hc, hfirst⟩ := head?_message hd
    have hquote : some c = some '\'' := by
      rw [← hfirst, h]
      decide
    rw [Option.some.inj hquote] at hc
    exact absurd hc (by decide)
  · rintro rfl
    rfl

/-- **Stray breaks are reported exactly**: when every fault of a source is worded as a stray break,
    there are as many faults as there are breaks in the tree without a loop to leave. -/
theorem strayBreaks_reported {source : String}
    (h : ∀ d ∈ (parse source).diagnostics,
      d.message = "'termina' solo puede usarse dentro de un ciclo") :
    (parse source).diagnostics.length = (parse source).program.breaks.countP (Stray ·) := by
  have hstray : ∀ d ∈ (parse source).diagnostics, d = .strayBreak :=
    fun d hd => Diagnostic.message_eq_iff.1 (h d hd)
  calc (parse source).diagnostics.length
      = (parse source).program.strayBreaks := (strayBreaks_of_parseTokens hstray).symm
    _ = (parse source).program.breaks.countP (Stray ·) := Stmt.strayBreaksAll_eq [] _

/-- A loop whose condition has a break, and whose body has a function with one and another such
    loop. -/
def nestedBreaks : String :=
  "mientras (si (a) \x7b termina \x7d) \x7b operacion() \x7b termina \x7d; " ++
    "mientras (si (a) \x7b termina \x7d) \x7b \x7d \x7d"

/-- Of the three breaks two are stray.  The condition of the inner loop is in the body of the outer
    one. -/
theorem strayBreaks_reported_nested :
    (parse nestedBreaks).program.breaks = [[], [.function, .loop], [.loop]] ∧
      (∀ d ∈ (parse nestedBreaks).diagnostics,
        d.message = "'termina' solo puede usarse dentro de un ciclo") ∧
      2 = (parse nestedBreaks).program.breaks.countP (Stray ·) := by
  have hbreaks : (parse nestedBreaks).program.breaks = [[], [.function, .loop], [.loop]] := by
    decide +kernel
  have hfaults : (parse nestedBreaks).diagnostics = [.strayBreak, .strayBreak] := by decide +kernel
  have hworded : ∀ d ∈ (parse nestedBreaks).diagnostics,
      d.message = "'termina' solo puede usarse dentro de un ciclo" := by
    intro d hd
    rw [hfaults] at hd
    exact Diagnostic.message_eq_iff.2 (List.eq_of_mem_replicate (n := 2) hd)
  have hreported := strayBreaks_reported hworded
  rw [hfaults] at hreported
  exact ⟨hbreaks, hworded, hreported⟩

end Incognita
