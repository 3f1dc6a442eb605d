import Incognita.Proofs.Concatenation
import Incognita.Proofs.Stacks.Actions

namespace Incognita

/-!
# Parser — the cursor and the stack follow the tokens

Reading with a cursor and a stack gives what reading with tokens gives.  The cursor always faces the
tokens that are left, and the innermost frame always counts the loops that are passed along.

* `Task.act` — what a call does to the state;
* `Task.Starts` — the cursor is where the call starts;
* `Task.act_agrees` — every call agrees with its action, by an induction on the bound with one lemma
  for each function.
-/

namespace Parser

/-! ### The functions that look at a few tokens only -/

open Act

section

variable {m : Machine} {ts : List Token}

/-- The parameters after the first one are read alike if the bound is enough. -/
theorem moreParams_agrees {n : Nat} (h : m.place.Faces ts) (hn : ts.length ≤ n) :
    Agrees m (Machine.moreParams (n + 1)) m (some (moreParams ts)) := by
  have h₀ := Leads.refl h
  rw [Machine.moreParams]
  -- The machine counts names down with `n`, the attempt goes down the tokens.
  fun_induction moreParams ts generalizing m n with
  | case1 =>
    rw [ahead_neg h (by simp [peek]), consume_neg h (by simp [peek])]
    exact .pure (h₀.report _)
  | case2 t ht =>
    rw [ahead_pos h ht, advance_bind, consume_neg h₀.advance.faces (by simp [peek])]
    exact .pure (h₀.advance.report _)
  | case3 t ht hk | case7 t u ts ht hk =>
    rw [ahead_neg h ht, consume_pos h hk]
    exact .pure h₀.advance
  | case4 t ht hk | case8 t u ts ht hk =>
    rw [ahead_neg h ht, consume_neg h hk]
    exact .pure (h₀.report _)
  | case5 t u ts ht hu ih =>
    have h₁ := h₀.advance.advance
    have hcurrent : m.advanced.advanced.place.current = u := h₀.advance.faces.ahead
    rw [ahead_pos h ht, advance_bind, consume_pos h₀.advance.faces hu, current_bind, hcurrent]
    simp only [List.length_cons] at hn
    obtain ⟨n, rfl⟩ : ∃ n', n = n' + 1 := ⟨n - 1, by omega⟩
    rw [Machine.moreParams]
    exact .bind_some (ih h₁.faces (by omega) (.refl h₁.faces)) fun m' hs => .pure (h₁.trans hs)
  | case6 t u ts ht hu =>
    rw [ahead_pos h ht, advance_bind, consume_neg h₀.advance.faces hu]
    exact .pure (h₀.advance.report _)

/-- Parameters are read alike, with the names that follow the first. -/
theorem params_agrees (h : m.place.Faces ts) : Agrees m Machine.params m (some (params ts)) := by
  have h₀ := Leads.refl h
  rw [Machine.params]
  cases ts with
  | nil =>
    rw [ahead_neg h (by simp [peek]), consume_neg h (by simp [peek])]
    exact .pure (h₀.report _)
  | cons t ts =>
    rw [params]
    split
    · next hk =>
      rw [ahead_pos h hk]
      exact .pure h₀.advance
    · next hk =>
      rw [ahead_neg h hk]
      split
      · next hi =>
        have hcurrent : m.advanced.place.current = t := h.ahead
        rw [consume_pos h hi, current_bind, hcurrent]
        have h₁ := h₀.advance
        rw [get_bind]
        exact .bind_some (moreParams_agrees h₁.faces h₁.faces.length_le) fun m' hs =>
          .pure (h₁.trans hs)
      · next hi =>
        rw [consume_neg h hi]
        exact .pure (h₀.report _)

/-- A closing parenthesis is asked for alike behind what was read. -/
theorem close_agrees {α : Type} {m₀ : Machine} {rest : List Token} {faults : List Diagnostic}
    {v w : α} (h : Leads m₀ rest faults m) :
    Agrees m₀ (do if ← consume .rparen then return v else return w) m
      (match expect? .rparen rest with
        | some after => some ⟨v, after, faults⟩
        | none => some ⟨w, rest, faults ++ [unexpected .rparen rest]⟩) := by
  split
  · next after hr =>
    obtain ⟨u, hu, rfl⟩ := expect?_eq_some.1 hr
    rw [consume_pos h.faces hu]
    exact .pure h.advance
  · next hr =>
    rw [consume_neg h.faces ((expect?_eq_none (by simp)).1 hr)]
    exact .pure (h.report _)

end

/-! ### One lemma for each function that makes calls -/

namespace Task

/-- What the call does to the state. -/
def act (fuel : Nat) : (k : Task) → Act k.Result
  | expr _ power _ => Machine.expr fuel power
  | operand _ _ _ => Machine.operand fuel
  | operators _ power left _ => Machine.operators fuel power left
  | args _ _ => Machine.args fuel
  | moreArgs _ _ => Machine.moreArgs fuel
  | condition _ _ => Machine.condition fuel
  | choice _ t cond _ => Machine.choice fuel t cond
  | block _ _ => Machine.block fuel
  | body _ _ => Machine.body fuel
  | stmt _ _ _ => Machine.stmt fuel

/-- The loops that are open around the call. -/
def loops : Task → Nat
  | expr loops _ _ | operand loops _ _ | operators loops _ _ _ | args loops _ | moreArgs loops _
  | condition loops _ | choice loops _ _ _ | block loops _ | body loops _ | stmt loops _ _ => loops

/-- The cursor is where the call starts.  Some calls start with the current token, and others
    behind it. -/
def Starts (p : Place) : Task → Prop
  | expr _ power ts => Power.lowest ≤ power ∧ p.current = ts.headD .eof ∧ p.Faces ts.tail
  | operand _ t ts | stmt _ t ts => p.current = t ∧ p.Faces ts
  | operators _ power _ ts => Power.lowest ≤ power ∧ p.Faces ts
  | args _ ts | moreArgs _ ts | condition _ ts | choice _ _ _ ts => p.Faces ts
  | block _ ts => peek ts = .lbrace ∧ p.At ts
  | body _ ts => p.At ts

/-- Every call agrees with its action where it starts. -/
def AllAgree (fuel : Nat) : Prop :=
  ∀ (k : Task) (m : Machine), k.Starts m.place → m.Within k.loops →
    Agrees m (k.act fuel) m (k.run fuel)

section

variable {fuel loops : Nat} {power : Power} {t : Token} {left cond : Expr} {ts : List Token}
  {m : Machine}

/-- The step for expressions. -/
theorem expr_agrees (ih : AllAgree fuel) (h : (expr loops power ts).Starts m.place)
    (hw : m.Within loops) :
    Agrees m (Machine.expr (fuel + 1) power) m (Parser.expr (fuel + 1) loops power ts) := by
  obtain ⟨hp, hcurrent, hfaces⟩ := h
  cases ts with
  | nil =>
    rw [Machine.expr, Parser.expr, current_bind, hcurrent]
    exact .pure ((Leads.refl hfaces).report _)
  | cons t ts =>
    rw [Machine.expr, Parser.expr, current_bind, hcurrent, List.headD_cons]
    split
    · refine .bind (ih (operand loops t ts) m ⟨hcurrent, hfaces⟩ hw) fun left m' hl => ?_
      exact .after hl (ih (operators loops power left.value left.rest) m' ⟨hp, hl.faces⟩
        (hl.within hw))
    · exact .pure ((Leads.refl hfaces).report _)

/-- An expression that starts with the token ahead is read after a step of the cursor. -/
theorem expr_ahead (ih : AllAgree fuel) (h : m.place.Faces ts) (hw : m.Within loops)
    (hp : Power.lowest ≤ power) :
    Agrees m.advanced (Machine.expr fuel power) m.advanced (Parser.expr fuel loops power ts) :=
  ih (expr loops power ts) m.advanced ⟨hp, h.next.current, h.next.faces⟩
    ((Leads.refl h).advance.within hw)

/-- The step for operators behind an operand.  At the end of the source both stop, the machine
    because the end has the lowest power. -/
theorem operators_agrees (ih : AllAgree fuel) (h : (operators loops power left ts).Starts m.place)
    (hw : m.Within loops) :
    Agrees m (Machine.operators (fuel + 1) power left) m
      (Parser.operators (fuel + 1) loops power left ts) := by
  obtain ⟨hp, hfaces⟩ := h
  have h₀ := Leads.refl hfaces
  cases ts with
  | nil =>
    rw [Machine.operators, Parser.operators, ahead_bind, hfaces.ahead]
    have hstop : ¬ (Token.eof.kind ≠ .semicolon ∧ power < Power.ofKind Token.eof.kind) :=
      fun hlt => absurd hp (Nat.not_le.2 hlt.2)
    rw [List.headD_nil, if_neg hstop]
    exact .pure h₀
  | cons t ts =>
    rw [Machine.operators, Parser.operators, ahead_bind, hfaces.ahead, List.headD_cons]
    -- No operator is a semicolon, so the machine's extra test is passed.
    by_cases hlt : power < Power.ofKind t.kind
    · rw [if_pos hlt, if_pos ⟨ne_semicolon_of_lt hp hlt, hlt⟩]
      have h₁ := h₀.advance
      split
      · rw [advance_bind]
        refine .bind (ih (args loops ts) m.advanced h₁.faces (h₁.within hw)) fun as m' ha => ?_
        have h₂ := h₁.trans ha
        exact .after h₂ (ih (operators loops power _ as.rest) m' ⟨hp, h₂.faces⟩ (h₂.within hw))
      · next hk =>
        rw [if_pos (isBinary_of_lt hp hlt hk), advance_bind, advance_bind]
        have h₂ := h₁.advance
        refine .bind (expr_ahead ih h₁.faces (h₁.within hw) (lowest_le_ofKind _))
          fun right m' hr => ?_
        have h₃ := h₂.trans hr
        exact .after h₃ (ih (operators loops power _ right.rest) m' ⟨hp, h₃.faces⟩ (h₃.within hw))
    · rw [if_neg hlt, if_neg fun hlt' => hlt hlt'.2]
      exact .pure h₀

/-- The step for arguments. -/
theorem args_agrees (ih : AllAgree fuel) (h : m.place.Faces ts) (hw : m.Within loops) :
    Agrees m (Machine.args (fuel + 1)) m (Parser.args (fuel + 1) loops ts) := by
  have h₀ := Leads.refl h
  rw [Machine.args, Parser.args]
  split
  · next rest hr =>
    obtain ⟨t, hk, rfl⟩ := expect?_eq_some.1 hr
    rw [ahead_pos h hk]
    exact .pure h₀.advance
  · next hr =>
    rw [ahead_neg h ((expect?_eq_none (by simp)).1 hr), advance_bind]
    refine .bind (expr_ahead ih h hw (Nat.le_refl _)) fun e m' he => ?_
    have h₂ := h₀.advance.trans he
    refine .bind (ih (moreArgs loops e.rest) m' h₂.faces (h₂.within hw)) fun es m'' hes => ?_
    exact .pure (h₂.trans hes)

/-- The step for the arguments behind the first one. -/
theorem moreArgs_agrees (ih : AllAgree fuel) (h : m.place.Faces ts) (hw : m.Within loops) :
    Agrees m (Machine.moreArgs (fuel + 1)) m (Parser.moreArgs (fuel + 1) loops ts) := by
  have h₀ := Leads.refl h
  cases ts with
  | nil =>
    rw [Machine.moreArgs, Parser.moreArgs, ahead_neg h (by simp [peek]),
      consume_neg h (by simp [peek])]
    exact .pure (h₀.report _)
  | cons t ts =>
    rw [Machine.moreArgs, Parser.moreArgs]
    split
    · next hk =>
      have h₁ := h₀.advance
      rw [ahead_pos h hk, advance_bind, advance_bind]
      refine .bind (expr_ahead ih h₁.faces (h₁.within hw) (Nat.le_refl _)) fun e m' he => ?_
      have h₂ := h₁.advance.trans he
      refine .bind (ih (moreArgs loops e.rest) m' h₂.faces (h₂.within hw)) fun es m'' hes => ?_
      exact .pure (h₂.trans hes)
    · next hk =>
      rw [ahead_neg h hk]
      split
      · next hr =>
        rw [consume_pos h hr]
        exact .pure h₀.advance
      · next hr =>
        rw [consume_neg h hr]
        exact .pure (h₀.report _)

/-- The step for a condition in parentheses. -/
theorem condition_agrees (ih : AllAgree fuel) (h : m.place.Faces ts) (hw : m.Within loops) :
    Agrees m (Machine.condition (fuel + 1)) m (Parser.condition (fuel + 1) loops ts) := by
  have h₀ := Leads.refl h
  rw [Machine.condition, Parser.condition]
  split
  · next hr =>
    rw [consume_neg h ((expect?_eq_none (by simp)).1 hr)]
    exact .pure (h₀.report _)
  · next ts' hr =>
    obtain ⟨t, hk, rfl⟩ := expect?_eq_some.1 hr
    have h₁ := h₀.advance
    rw [consume_pos h hk, advance_bind]
    refine .bind (expr_ahead ih h₁.faces (h₁.within hw) (Nat.le_refl _)) fun e m' he => ?_
    exact close_agrees (h₁.advance.trans he)

/-- A block behind an opening brace agrees if it does after a step of the cursor. -/
theorem braced_agrees {act : Act Block} (h : m.place.Faces ts)
    (hact : peek ts = .lbrace →
      Agrees m.advanced act m.advanced (Parser.block fuel loops ts)) :
    Agrees m (braced act) m (Parser.block fuel loops ts) := by
  have h₀ := Leads.refl h
  rw [braced]
  -- Without a brace the action is not started, and neither is the attempt.
  by_cases hk : peek ts = .lbrace
  · rw [consume_pos h hk]
    exact .rebase h₀.advance (hact hk)
  · rw [consume_neg h hk]
    cases fuel with
    | zero =>
      rw [Parser.block]
      exact agrees_none _ _ _
    | succ fuel =>
      cases ts with
      | nil =>
        rw [Parser.block]
        exact .pure (h₀.report _)
      | cons t ts =>
        rw [peek] at hk
        rw [Parser.block, if_neg hk]
        exact .pure (h₀.report _)

/-- A block in the braces ahead. -/
theorem block_ahead (ih : AllAgree fuel) (h : m.place.Faces ts) (hw : m.Within loops) :
    Agrees m (braced (Machine.block fuel)) m (Parser.block fuel loops ts) :=
  braced_agrees h fun hk =>
    ih (block loops ts) m.advanced ⟨hk, h.next⟩ ((Leads.refl h).advance.within hw)

/-- The step for a choice, behind its condition. -/
theorem choice_agrees (ih : AllAgree fuel) (h : m.place.Faces ts) (hw : m.Within loops) :
    Agrees m (Machine.choice (fuel + 1) t cond) m
      (Parser.choice (fuel + 1) loops t cond ts) := by
  rw [Machine.choice, Parser.choice]
  refine .bind (block_ahead ih h hw) fun a m₁ h₁ => ?_
  cases a.value with
  | missing => exact .pure h₁
  | mk u ss =>
    dsimp only
    split
    · next hr =>
      rw [ahead_neg h₁.faces ((expect?_eq_none (by simp)).1 hr)]
      exact .pure h₁
    · next ts' hr =>
      obtain ⟨v, hk, hrest⟩ := expect?_eq_some.1 hr
      rw [hrest] at h₁
      rw [ahead_pos h₁.faces hk, advance_bind]
      have h₂ := h₁.advance
      refine .bind (block_ahead ih h₂.faces (h₂.within hw)) fun b m₃ h₃ => ?_
      cases b.value with
      | missing | mk => exact .pure (h₂.trans h₃)

/-- A block is read alike, whatever the token that it starts with. -/
theorem block_current (ih : AllAgree fuel) (h : m.place.Faces ts) (hw : m.Within loops) :
    Agrees m (Machine.block (fuel + 1)) m
      ((Parser.body fuel loops ts).bind fun ss => some (ss.map (.mk m.place.current))) := by
  have h₁ := (Leads.refl h).advance
  rw [Machine.block, current_bind, advance_bind]
  refine .bind (ih (body loops ts) m.advanced h.next (h₁.within hw)) fun ss m' hs => ?_
  exact .pure (h₁.trans hs)

/-- The step for a block. -/
theorem block_agrees (ih : AllAgree fuel) (h : (block loops ts).Starts m.place)
    (hw : m.Within loops) :
    Agrees m (Machine.block (fuel + 1)) m (Parser.block (fuel + 1) loops ts) := by
  obtain ⟨hk, hat⟩ := h
  cases ts with
  | nil => exact absurd hk (by simp [peek])
  | cons t ts =>
    have hcurrent : m.place.current = t := hat.current
    have hblock := block_current ih hat.faces hw
    rw [peek] at hk
    rw [hcurrent] at hblock
    rw [Parser.block, if_pos hk]
    exact hblock

/-- The step for the statements of a block, up to its brace. -/
theorem body_agrees (ih : AllAgree fuel) (h : m.place.At ts) (hw : m.Within loops) :
    Agrees m (Machine.body (fuel + 1)) m (Parser.body (fuel + 1) loops ts) := by
  have h₀ := Leads.refl h.faces
  -- At the end of the source the brace is missing, which both report.
  cases ts with
  | nil =>
    rw [Machine.body, Parser.body, current_bind, h.current]
    exact .pure (h₀.report _)
  | cons t ts =>
    have hcurrent : m.place.current = t := h.current
    rw [Machine.body, Parser.body, current_bind, hcurrent]
    split
    · exact .pure h₀
    · rw [if_neg (h.noEnd t List.mem_cons_self)]
      refine .bind (ih (stmt loops t ts) m ⟨hcurrent, h.faces⟩ hw) fun s m₁ h₁ => ?_
      rw [advance_bind]
      have h₂ := h₁.advance
      refine .bind (ih (body loops s.rest) m₁.advanced h₁.faces.next (h₂.within hw))
        fun ss m₃ h₃ => ?_
      exact .pure (h₂.trans h₃)

/-- A binding is read alike. -/
theorem stmt_bind_agrees (ih : AllAgree fuel) (h : (stmt loops t ts).Starts m.place)
    (hw : m.Within loops) (hk : t.kind = .kwLet) :
    Agrees m (Machine.stmt (fuel + 1)) m (Parser.stmt (fuel + 1) loops t ts) := by
  obtain ⟨hcurrent, hfaces⟩ := h
  have h₀ := Leads.refl hfaces
  rw [Machine.stmt, current_bind, hcurrent]
  cases ts with
  | nil =>
    simp only [Parser.stmt, hk]
    rw [consume_neg hfaces (by simp [peek])]
    exact .pure (h₀.report _)
  | cons name ts =>
    simp only [Parser.stmt, hk]
    have h₁ := h₀.advance
    have hname : m.advanced.place.current = name := hfaces.ahead
    split
    · next hn =>
      rw [consume_pos hfaces hn, current_bind, hname]
      split
      · next hr =>
        rw [consume_neg h₁.faces ((expect?_eq_none (by simp)).1 hr)]
        exact .pure (h₁.report _)
      · next ts' hr =>
        obtain ⟨a, ha, rfl⟩ := expect?_eq_some.1 hr
        have h₂ := h₁.advance
        rw [consume_pos h₁.faces ha, advance_bind]
        refine .bind (expr_ahead ih h₂.faces (h₂.within hw) (Nat.le_refl _)) fun e m' he => ?_
        exact .skip (h₂.advance.trans he) fun _ hs => .pure hs
    · next hn =>
      rw [consume_neg hfaces hn]
      exact .pure (h₀.report _)

/-- The step for a statement. -/
theorem stmt_agrees (ih : AllAgree fuel) (h : (stmt loops t ts).Starts m.place)
    (hw : m.Within loops) :
    Agrees m (Machine.stmt (fuel + 1)) m (Parser.stmt (fuel + 1) loops t ts) := by
  by_cases hl : t.kind = .kwLet
  · exact stmt_bind_agrees ih h hw hl
  obtain ⟨hcurrent, hfaces⟩ := h
  have h₀ := Leads.refl hfaces
  rw [Machine.stmt, current_bind, hcurrent]
  by_cases hr : t.kind = .kwReturn
  · rw [stmt_of_kwReturn hr]
    simp only [hr]
    rw [ahead_bind, hfaces.kind_ahead]
    split
    · exact .skip h₀ fun _ hs => .pure hs
    · rw [advance_bind]
      refine .bind (expr_ahead ih hfaces hw (Nat.le_refl _)) fun e m' he => ?_
      exact .skip (h₀.advance.trans he) fun _ hs => .pure hs
  by_cases hb : t.kind = .kwBreak
  · rw [stmt_of_kwBreak hb]
    simp only [hb]
    rw [bind_of_run (checkBreak_run hw)]
    split
    · exact .skip (h₀.report _) fun _ hs => .pure hs
    · exact .skip h₀ fun _ hs => .pure hs
  · rw [stmt_of_expr hl hr hb]
    split
    · next hl' => exact absurd hl' hl
    · next hr' => exact absurd hr' hr
    · next hb' => exact absurd hb' hb
    · refine .bind (ih (expr loops Power.lowest (t :: ts)) m ⟨Nat.le_refl _, hcurrent, hfaces⟩ hw)
        fun e m' he => ?_
      refine .skip he fun m'' hs => ?_
      split <;> exact .pure hs

/-- An integer literal is read alike. -/
theorem intLiteral_agrees (hcurrent : m.place.current = t) (h : m.place.Faces ts) :
    Agrees m Machine.intLiteral m (some (intLiteral t ts)) := by
  rw [Machine.intLiteral, intLiteral, current_bind, hcurrent]
  cases Text.int64OfDigits? t.literal with
  | some n => exact .pure (.refl h)
  | none => exact .pure ((Leads.refl h).report _)

/-- A loop is read alike: its block with one more loop open. -/
theorem operand_loop_agrees (ih : AllAgree fuel) (h : (operand loops t ts).Starts m.place)
    (hw : m.Within loops) (hk : t.kind = .kwWhile) :
    Agrees m (Machine.operand (fuel + 1)) m (Parser.operand (fuel + 1) loops t ts) := by
  obtain ⟨hcurrent, hfaces⟩ := h
  rw [Machine.operand, current_bind, hcurrent]
  simp only [Parser.operand, hk]
  refine .bind (ih (condition loops ts) m hfaces hw) fun c m₁ h₁ => ?_
  cases c.value with
  | none => exact .pure h₁
  | some cond =>
    have hblock : Agrees m₁ (braced (withinLoop (Machine.block fuel))) m₁
        (Parser.block fuel (loops + 1) c.rest) := by
      refine braced_agrees h₁.faces fun hb => ?_
      refine .withinLoop (h₁.advance.within hw) fun m₂ hplace hw₂ => ?_
      exact ih (block (loops + 1) c.rest) m₂ ⟨hb, hplace ▸ h₁.faces.next⟩ hw₂
    refine .bind hblock fun b m₂ h₂ => ?_
    cases b.value with
    | missing | mk => exact .pure (h₁.trans h₂)

/-- A function is read alike: its block with no loop open. -/
theorem operand_fn_agrees (ih : AllAgree fuel) (h : (operand loops t ts).Starts m.place)
    (hw : m.Within loops) (hk : t.kind = .kwFunction) :
    Agrees m (Machine.operand (fuel + 1)) m (Parser.operand (fuel + 1) loops t ts) := by
  obtain ⟨hcurrent, hfaces⟩ := h
  have h₀ := Leads.refl hfaces
  rw [Machine.operand, current_bind, hcurrent]
  simp only [Parser.operand, hk]
  split
  · next hr =>
    rw [consume_neg hfaces ((expect?_eq_none (by simp)).1 hr)]
    exact .pure (h₀.report _)
  · next ts' hr =>
    obtain ⟨u, hu, rfl⟩ := expect?_eq_some.1 hr
    have h₁ : Leads m ts' [] m.advanced := h₀.advance
    rw [consume_pos hfaces hu]
    refine .bind_some (params_agrees h₁.faces) fun m₂ h₂ => ?_
    have h₂ := h₁.trans h₂
    cases (params ts').value with
    | none => exact .pure h₂
    | some names =>
      have hblock : Agrees m₂ (braced (withinFunction t.literal (Machine.block fuel))) m₂
          (Parser.block fuel 0 (params ts').rest) := by
        refine braced_agrees h₂.faces fun hb => ?_
        refine .withinFunction (h₂.advance.within hw).steady fun m₃ hplace hw₃ => ?_
        exact ih (block 0 (params ts').rest) m₃ ⟨hb, hplace ▸ h₂.faces.next⟩ hw₃
      refine .bind hblock fun b m₃ h₃ => ?_
      cases b.value with
      | missing | mk => exact .pure (h₂.trans h₃)

/-- The step for an operand. -/
theorem operand_agrees (ih : AllAgree fuel) (h : (operand loops t ts).Starts m.place)
    (hw : m.Within loops) :
    Agrees m (Machine.operand (fuel + 1)) m (Parser.operand (fuel + 1) loops t ts) := by
  by_cases hloop : t.kind = .kwWhile
  · exact operand_loop_agrees ih h hw hloop
  by_cases hfn : t.kind = .kwFunction
  · exact operand_fn_agrees ih h hw hfn
  obtain ⟨hcurrent, hfaces⟩ := h
  have h₀ := Leads.refl hfaces
  rw [Machine.operand, current_bind, hcurrent]
  cases hk : t.kind <;> simp only [Parser.operand, hk]
  case kwWhile => exact absurd hk hloop
  case kwFunction => exact absurd hk hfn
  case int => exact intLiteral_agrees hcurrent hfaces
  case ident | string | kwTrue | kwFalse => exact .pure h₀
  case bang | minus =>
    rw [advance_bind]
    refine .bind (expr_ahead ih hfaces hw lowest_le_unary) fun e m' he => ?_
    exact .pure (h₀.advance.trans he)
  case lparen =>
    rw [advance_bind]
    refine .bind (expr_ahead ih hfaces hw (Nat.le_refl _)) fun e m' he => ?_
    exact close_agrees (h₀.advance.trans he)
  case kwIf =>
    refine .bind (ih (condition loops ts) m hfaces hw) fun c m₁ h₁ => ?_
    cases c.value with
    | none => exact .pure h₁
    | some cond =>
      exact .after h₁ (ih (choice loops t cond c.rest) m₁ h₁.faces (h₁.within hw))
  -- No expression starts with any other token.
  all_goals exact .pure (h₀.report _)

end

/-- **Every call agrees with its action.**  By induction on the bound, with one step for each
    reading function.  What the attempt hands on as tokens and faults, the machine has in its cursor
    and its list of faults. -/
theorem act_agrees (fuel : Nat) : AllAgree fuel := by
  induction fuel with
  | zero =>
    intro k m _ _
    rw [run_zero]
    exact agrees_none _ _ _
  | succ fuel ih =>
    intro k m h hw
    cases k with
    | expr => exact expr_agrees ih h hw
    | operand => exact operand_agrees ih h hw
    | operators => exact operators_agrees ih h hw
    | args => exact args_agrees ih h hw
    | moreArgs => exact moreArgs_agrees ih h hw
    | condition => exact condition_agrees ih h hw
    | choice => exact choice_agrees ih h hw
    | block => exact block_agrees ih h hw
    | body => exact body_agrees ih h hw
    | stmt => exact stmt_agrees ih h hw

end Task

end Parser

end Incognita
