import Incognita.Proofs.Reading.Rules

namespace Incognita

/-!
# Parser — a clean call follows the rules

* `Step.Clean` — no fault was met but stray breaks;
* `Parser.reads_of_run` — a clean call, under whatever bound, is a reading by the rules;
* `readsAll_of_parseTokens`, `readsAll_of_parse` — hence so is a source without other faults.

The proof is one lemma for each reading function: when it is clean, so are the calls it makes,
and one of the rules puts their readings together.
-/

/-! ### Steps without faults but stray breaks -/

namespace Step

variable {α : Type} {fs : List Diagnostic}

/-- No fault was met but stray breaks. -/
def Clean (s : Step α) : Prop := ∀ d ∈ s.faults, d = .strayBreak

/-- Faults are added up, so both parts have to be clean. -/
theorem clean_after {s : Step α} : (s.after fs).Clean ↔ (∀ d ∈ fs, d = .strayBreak) ∧ s.Clean := by
  simp only [Clean, after, List.mem_append]
  constructor
  · intro h
    exact ⟨fun d hd => h d (.inl hd), fun d hd => h d (.inr hd)⟩
  · rintro ⟨h, h'⟩ d (hd | hd)
    · exact h d hd
    · exact h' d hd

/-- A fault other than a stray break makes a step unclean. -/
theorem not_clean_of_mem {s : Step α} {d : Diagnostic} (hm : d ∈ s.faults)
    (hd : d ≠ .strayBreak) : ¬ s.Clean := by
  intro h
  exact hd (h d hm)

/-- A call that reports something else does not give a clean step. -/
theorem not_clean_of_report {s : Step α} {v : α} {rest : List Token} {d : Diagnostic}
    (h : some (⟨v, rest, fs⟩ : Step α) = some s) (hm : d ∈ fs) (hd : d ≠ .strayBreak) :
    ¬ s.Clean := by
  obtain rfl := Option.some.inj h
  exact not_clean_of_mem hm hd

end Step

namespace Parser

/-! ### One lemma for each function -/

/-- Every call that is clean under the bound `fuel` follows the rules. -/
def Follows (fuel : Nat) : Prop :=
  ∀ (k : Task) (s : Step k.Result), k.run fuel = some s → s.Clean →
    Reads k s.value s.rest s.faults.length

section

variable {fuel loops : Nat} {power : Power} {t : Token} {ts : List Token}

/-- An expression without faults follows the rule for expressions. -/
theorem expr_follows (ih : Follows fuel) {s : Step Expr}
    (h : expr (fuel + 1) loops power ts = some s) (hc : s.Clean) :
    Reads (.expr loops power ts) s.value s.rest s.faults.length := by
  cases ts with
  | nil =>
    rw [expr] at h
    exact absurd hc (Step.not_clean_of_report h (List.mem_singleton_self _) (by simp))
  | cons t ts =>
    rw [expr] at h
    split at h
    · next hs =>
      simp only [Option.bind_eq_bind, Option.bind_eq_some_iff, Option.some.injEq] at h
      obtain ⟨left, hl, whole, hw, rfl⟩ := h
      -- The faults of both parts are among those of the whole, so both are clean.
      obtain ⟨hcl, hcw⟩ := Step.clean_after.1 hc
      simp only [Step.after, List.length_append]
      exact .expr hs (ih (.operand loops t ts) left hl hcl)
        (ih (.operators loops power left.value left.rest) whole hw hcw)
    · exact absurd hc (Step.not_clean_of_report h (List.mem_singleton_self _) (by simp))

/-- A group without faults has its closing parenthesis. -/
theorem operand_group_follows (ih : Follows fuel) {s : Step Expr} (hk : t.kind = .lparen)
    (h : operand (fuel + 1) loops t ts = some s) (hc : s.Clean) :
    Reads (.operand loops t ts) s.value s.rest s.faults.length := by
  simp only [operand, hk, Option.bind_eq_bind, Option.bind_eq_some_iff] at h
  obtain ⟨e, he, h⟩ := h
  split at h
  · next after hp =>
    rw [Option.some.injEq] at h
    subst h
    -- Without the parenthesis there would be a fault, and that is the other case.
    obtain ⟨u, hu, hr⟩ := expect?_eq_some.1 hp
    have hread := ih (.expr loops Power.lowest ts) e he hc
    rw [hr] at hread
    exact .group hk hu hread
  · exact absurd hc (Step.not_clean_of_report h
      (List.mem_append_right _ (List.mem_singleton_self _)) (by simp [unexpected]))

/-- A choice without faults has its condition and its block. -/
theorem operand_choice_follows (ih : Follows fuel) {s : Step Expr} (hk : t.kind = .kwIf)
    (h : operand (fuel + 1) loops t ts = some s) (hc : s.Clean) :
    Reads (.operand loops t ts) s.value s.rest s.faults.length := by
  simp only [operand, hk, Option.bind_eq_bind, Option.bind_eq_some_iff] at h
  obtain ⟨c, hcond, h⟩ := h
  split at h
  · next hv =>
    rw [Option.some.injEq] at h
    subst h
    exact absurd hv (ih (.condition loops ts) c hcond hc).present
  · next cond hv =>
    simp only [Option.bind_eq_some_iff, Option.some.injEq] at h
    obtain ⟨w, hw, rfl⟩ := h
    obtain ⟨hcc, hcw⟩ := Step.clean_after.1 hc
    have hread := ih (.condition loops ts) c hcond hcc
    rw [hv] at hread
    simp only [Step.after, List.length_append]
    exact .choose hk hread (ih (.choice loops t cond c.rest) w hw hcw)

/-- So has a loop. -/
theorem operand_loop_follows (ih : Follows fuel) {s : Step Expr} (hk : t.kind = .kwWhile)
    (h : operand (fuel + 1) loops t ts = some s) (hc : s.Clean) :
    Reads (.operand loops t ts) s.value s.rest s.faults.length := by
  simp only [operand, hk, Option.bind_eq_bind, Option.bind_eq_some_iff] at h
  obtain ⟨c, hcond, h⟩ := h
  split at h
  · next hv =>
    rw [Option.some.injEq] at h
    subst h
    exact absurd hv (ih (.condition loops ts) c hcond hc).present
  · next cond hv =>
    simp only [Option.bind_eq_some_iff] at h
    obtain ⟨b, hb, h⟩ := h
    have hb' := ih (.block (loops + 1) c.rest) b hb
    split at h <;> rw [Option.some.injEq] at h <;> subst h
    -- A block that is missing has been reported.
    · next hbv => exact absurd hbv (hb' (Step.clean_after.1 hc).2).present
    · obtain ⟨hcc, hcb⟩ := Step.clean_after.1 hc
      have hread := ih (.condition loops ts) c hcond hcc
      rw [hv] at hread
      simp only [List.length_append]
      exact .loop hk hread (hb' hcb)

/-- Parameters that are read are read without a fault. -/
theorem moreParams_clean (ts : List Token) (names : List Ident)
    (h : (moreParams ts).value = some names) : (moreParams ts).faults = [] := by
  -- The only case that goes on is a comma with a name behind it.
  fun_induction moreParams ts generalizing names with
  | case5 t u ts _ _ ih =>
    simp only [Step.map, Option.map_eq_some_iff] at h ⊢
    obtain ⟨names', h', -⟩ := h
    exact ih names' h'
  | case3 | case7 => rfl
  | case1 | case2 | case4 | case6 | case8 => simp at h

/-- Parameters that are given have no faults. -/
theorem params_clean (ts : List Token) (names : List Ident) (h : (params ts).value = some names) :
    (params ts).faults = [] := by
  cases ts with
  | nil => simp [params] at h
  | cons t ts =>
    by_cases hr : t.kind = .rparen
    · simp [params, hr]
    · by_cases hi : t.kind = .ident
      · simp only [params, if_neg hr, if_pos hi, Step.map, Option.map_eq_some_iff] at h ⊢
        obtain ⟨names', h', -⟩ := h
        exact moreParams_clean ts names' h'
      · simp [params, hr, hi] at h

/-- The faults of parameters that are not read are no stray breaks. -/
theorem moreParams_not_clean (ts : List Token) (h : (moreParams ts).value = none) :
    ¬ (moreParams ts).Clean := by
  fun_induction moreParams ts with
  | case5 t u ts _ _ ih =>
    simp only [Step.map, Option.map_eq_none_iff] at h
    exact ih h
  | case3 | case7 => simp at h
  | case1 | case2 | case4 | case6 | case8 =>
    exact Step.not_clean_of_mem (List.mem_singleton_self _) (by simp)

/-- Parameters that are not given have one. -/
theorem params_not_clean (ts : List Token) (h : (params ts).value = none) :
    ¬ (params ts).Clean := by
  cases ts with
  | nil => exact Step.not_clean_of_mem (List.mem_singleton_self _) (by simp)
  | cons t ts =>
    by_cases hr : t.kind = .rparen
    · simp [params, hr] at h
    · by_cases hi : t.kind = .ident
      · simp only [params, if_neg hr, if_pos hi, Step.map, Option.map_eq_none_iff] at h ⊢
        exact moreParams_not_clean ts h
      · rw [params, if_neg hr, if_neg hi]
        exact Step.not_clean_of_mem (List.mem_singleton_self _) (by simp)

/-- A function without faults has its parameters and its block. -/
theorem operand_fn_follows (ih : Follows fuel) {s : Step Expr} (hk : t.kind = .kwFunction)
    (h : operand (fuel + 1) loops t ts = some s) (hc : s.Clean) :
    Reads (.operand loops t ts) s.value s.rest s.faults.length := by
  simp only [operand, hk] at h
  split at h
  · exact absurd hc (Step.not_clean_of_report h (List.mem_singleton_self _) (by simp [unexpected]))
  · next ts' hp =>
    obtain ⟨u, hu, rfl⟩ := expect?_eq_some.1 hp
    split at h
    · next hv =>
      rw [Option.some.injEq] at h
      subst h
      exact absurd hc (params_not_clean ts' hv)
    · next names hv =>
      -- Parameters have no faults of their own once they are read.
      have hps : params ts' = ⟨some names, (params ts').rest, []⟩ := by
        rw [← hv, ← params_clean ts' names hv]
      simp only [Option.bind_eq_bind, Option.bind_eq_some_iff] at h
      obtain ⟨b, hb, h⟩ := h
      have hb' := ih (.block 0 (params ts').rest) b hb
      rw [params_clean ts' names hv, List.nil_append] at h
      split at h <;> rw [Option.some.injEq] at h <;> subst h
      · next hbv => exact absurd hbv (hb' hc).present
      · exact .fn hk hu hps (hb' hc)

/-- Every other operand without faults follows the rule for its kind. -/
theorem operand_follows (ih : Follows fuel) {s : Step Expr}
    (h : operand (fuel + 1) loops t ts = some s) (hc : s.Clean) :
    Reads (.operand loops t ts) s.value s.rest s.faults.length := by
  cases hk : t.kind with
  | lparen => exact operand_group_follows ih hk h hc
  | kwIf => exact operand_choice_follows ih hk h hc
  | kwWhile => exact operand_loop_follows ih hk h hc
  | kwFunction => exact operand_fn_follows ih hk h hc
  | bang | minus =>
    simp only [operand, hk, Option.bind_eq_bind, Option.bind_eq_some_iff, Option.some.injEq] at h
    obtain ⟨e, he, rfl⟩ := h
    exact .unary (by simp [hk]) (ih (.expr loops Power.unary ts) e he hc)
  | int =>
    simp only [operand, hk, Option.some.injEq, intLiteral] at h
    split at h <;> subst h
    · next n hn => exact .leaf (by simp [leaf?, hk, hn])
    · exact absurd hc (Step.not_clean_of_mem (List.mem_singleton_self _) (by simp))
  | ident | string | kwTrue | kwFalse =>
    simp only [operand, hk, Option.some.injEq] at h
    subst h
    exact .leaf (by simp [leaf?, hk])
  | _ =>
    simp only [operand, hk, Option.some.injEq] at h
    subst h
    exact absurd hc (Step.not_clean_of_mem (List.mem_singleton_self _) (by simp))

/-- Operators without faults follow the rules for a call, for an operator, and for stopping. -/
theorem operators_follows (ih : Follows fuel) {left : Expr} {s : Step Expr}
    (h : operators (fuel + 1) loops power left ts = some s) (hc : s.Clean) :
    Reads (.operators loops power left ts) s.value s.rest s.faults.length := by
  cases ts with
  | nil =>
    rw [operators, Option.some.injEq] at h
    subst h
    exact .stop (by simp [Stops])
  | cons t ts =>
    rw [operators] at h
    split at h
    · next hp =>
      split at h
      · next hk =>
        simp only [Option.bind_eq_bind, Option.bind_eq_some_iff, Option.some.injEq] at h
        obtain ⟨as, ha, w, hw, rfl⟩ := h
        obtain ⟨hca, hcw⟩ := Step.clean_after.1 hc
        have hread := ih (.args loops ts) as ha hca
        -- Arguments that were read are there, so the call is not given up.
        cases hv : as.value with
        | none => exact absurd hv hread.present
        | some es =>
          rw [hv] at hread hw
          simp only [Step.after, List.length_append]
          exact .call hp hk hread (ih (.operators loops power (.call t left es) as.rest) w hw hcw)
      · next hk =>
        simp only [Option.bind_eq_bind, Option.bind_eq_some_iff, Option.some.injEq] at h
        obtain ⟨r, hr, w, hw, rfl⟩ := h
        obtain ⟨hcr, hcw⟩ := Step.clean_after.1 hc
        simp only [Step.after, List.length_append]
        exact .binary hp hk (ih (.expr loops (Power.ofKind t.kind) ts) r hr hcr)
          (ih (.operators loops power (.binary t left t.literal r.value) r.rest) w hw hcw)
    · next hp =>
      rw [Option.some.injEq] at h
      subst h
      refine .stop ?_
      rintro u ⟨⟩
      exact Nat.le_of_not_lt hp

/-- Arguments without faults follow one of the two rules for them. -/
theorem args_follows (ih : Follows fuel) {s : Step (Option (List Expr))}
    (h : args (fuel + 1) loops ts = some s) (hc : s.Clean) :
    Reads (.args loops ts) s.value s.rest s.faults.length := by
  rw [args] at h
  split at h
  · next after hp =>
    rw [Option.some.injEq] at h
    subst h
    obtain ⟨u, hu, rfl⟩ := expect?_eq_some.1 hp
    exact .noArgs hu
  · simp only [Option.bind_eq_bind, Option.bind_eq_some_iff, Option.some.injEq] at h
    obtain ⟨e, he, es, hes, rfl⟩ := h
    obtain ⟨hce, hces⟩ := Step.clean_after.1 hc
    have hread := ih (.moreArgs loops e.rest) es hes hces
    cases hv : es.value with
    | none => exact absurd hv hread.present
    | some vs =>
      rw [hv] at hread
      simp only [Step.after, Step.map, hv, Option.map_some, List.length_append]
      exact .someArgs (ih (.expr loops Power.lowest ts) e he hce) hread

/-- So do the arguments behind the first one. -/
theorem moreArgs_follows (ih : Follows fuel) {s : Step (Option (List Expr))}
    (h : moreArgs (fuel + 1) loops ts = some s) (hc : s.Clean) :
    Reads (.moreArgs loops ts) s.value s.rest s.faults.length := by
  cases ts with
  | nil =>
    rw [moreArgs] at h
    exact absurd hc (Step.not_clean_of_report h (List.mem_singleton_self _) (by simp))
  | cons t ts =>
    rw [moreArgs] at h
    split at h
    · next hk =>
      simp only [Option.bind_eq_bind, Option.bind_eq_some_iff, Option.some.injEq] at h
      obtain ⟨e, he, es, hes, rfl⟩ := h
      obtain ⟨hce, hces⟩ := Step.clean_after.1 hc
      have hread := ih (.moreArgs loops e.rest) es hes hces
      -- The arguments behind the comma are there as well.
      cases hv : es.value with
      | none => exact absurd hv hread.present
      | some vs =>
        rw [hv] at hread
        simp only [Step.after, Step.map, hv, Option.map_some, List.length_append]
        exact .nextArg hk (ih (.expr loops Power.lowest ts) e he hce) hread
    · split at h
      · next hk =>
        rw [Option.some.injEq] at h
        subst h
        exact .lastArg hk
      · exact absurd hc (Step.not_clean_of_report h (List.mem_singleton_self _) (by simp))

/-- A condition without faults has both of its parentheses. -/
theorem condition_follows (ih : Follows fuel) {s : Step (Option Expr)}
    (h : condition (fuel + 1) loops ts = some s) (hc : s.Clean) :
    Reads (.condition loops ts) s.value s.rest s.faults.length := by
  rw [condition] at h
  split at h
  · exact absurd hc (Step.not_clean_of_report h (List.mem_singleton_self _) (by simp [unexpected]))
  · next ts' hp =>
    obtain ⟨u, hu, rfl⟩ := expect?_eq_some.1 hp
    simp only [Option.bind_eq_bind, Option.bind_eq_some_iff] at h
    obtain ⟨e, he, h⟩ := h
    split at h
    · next after hr =>
      rw [Option.some.injEq] at h
      subst h
      -- The expression is in front of the closing parenthesis.
      obtain ⟨v, hv, hrest⟩ := expect?_eq_some.1 hr
      have hread := ih (.expr loops Power.lowest ts') e he hc
      rw [hrest] at hread
      exact .condition hu hv hread
    · exact absurd hc (Step.not_clean_of_report h
        (List.mem_append_right _ (List.mem_singleton_self _)) (by simp [unexpected]))

/-- The blocks of a choice without faults are there. -/
theorem choice_follows (ih : Follows fuel) {cond : Expr} {s : Step Expr}
    (h : choice (fuel + 1) loops t cond ts = some s) (hc : s.Clean) :
    Reads (.choice loops t cond ts) s.value s.rest s.faults.length := by
  simp only [choice, Option.bind_eq_bind, Option.bind_eq_some_iff] at h
  obtain ⟨a, ha, h⟩ := h
  have ha' := ih (.block loops ts) a ha
  split at h
  · next hv =>
    rw [Option.some.injEq] at h
    subst h
    exact absurd hv (ha' hc).present
  · split at h
    · next hp =>
      rw [Option.some.injEq] at h
      subst h
      refine .oneWay (ha' hc) ?_
      -- An alternative would have been taken.
      intro hk
      cases hr : a.rest with
      | nil => simp [hr, peek] at hk
      | cons u us =>
        rw [hr, expect?_eq_some.2 ⟨u, by simpa [hr, peek] using hk, rfl⟩] at hp
        exact absurd hp (by simp)
    · next ts' hp =>
      obtain ⟨u, hu, hr⟩ := expect?_eq_some.1 hp
      simp only [Option.bind_eq_some_iff] at h
      obtain ⟨b, hb, h⟩ := h
      have hb' := ih (.block loops ts') b hb
      split at h <;> rw [Option.some.injEq] at h <;> subst h
      · next hv => exact absurd hv (hb' (Step.clean_after.1 hc).2).present
      · obtain ⟨hca, hcb⟩ := Step.clean_after.1 hc
        have hread := ha' hca
        rw [hr] at hread
        simp only [List.length_append]
        exact .twoWays hu hread (hb' hcb)

/-- A block without faults has its opening brace. -/
theorem block_follows (ih : Follows fuel) {s : Step Block}
    (h : block (fuel + 1) loops ts = some s) (hc : s.Clean) :
    Reads (.block loops ts) s.value s.rest s.faults.length := by
  cases ts with
  | nil =>
    rw [block] at h
    exact absurd hc (Step.not_clean_of_report h (List.mem_singleton_self _) (by simp))
  | cons t ts =>
    rw [block] at h
    split at h
    · next hk =>
      simp only [Option.bind_eq_bind, Option.bind_eq_some_iff, Option.some.injEq] at h
      obtain ⟨ss, hs, rfl⟩ := h
      exact .block hk (ih (.body loops ts) ss hs hc)
    · exact absurd hc (Step.not_clean_of_report h (List.mem_singleton_self _) (by simp))

/-- The statements of a block without faults go on up to its closing brace. -/
theorem body_follows (ih : Follows fuel) {s : Step (List Stmt)}
    (h : body (fuel + 1) loops ts = some s) (hc : s.Clean) :
    Reads (.body loops ts) s.value s.rest s.faults.length := by
  cases ts with
  | nil =>
    rw [body] at h
    exact absurd hc (Step.not_clean_of_report h (List.mem_singleton_self _) (by simp))
  | cons t ts =>
    rw [body] at h
    split at h
    · next hk =>
      rw [Option.some.injEq] at h
      subst h
      exact .close hk
    · simp only [Option.bind_eq_bind, Option.bind_eq_some_iff, Option.some.injEq] at h
      obtain ⟨st, hst, ss, hss, rfl⟩ := h
      obtain ⟨hcs, hcss⟩ := Step.clean_after.1 hc
      have hread := ih (.stmt loops t ts) st hst hcs
      -- A statement that was read is there, so there is no gap in the block.
      cases hv : st.value with
      | none => exact absurd hv hread.present
      | some v =>
        rw [hv] at hread
        simp only [Step.after, Step.map, Option.toList_some, List.singleton_append,
          List.length_append]
        exact .next hread (ih (.body loops st.rest) ss hss hcss)

/-- A binding without faults has its name and its sign. -/
theorem stmt_bind_follows (ih : Follows fuel) {s : Step (Option Stmt)} (hk : t.kind = .kwLet)
    (h : stmt (fuel + 1) loops t ts = some s) (hc : s.Clean) :
    Reads (.stmt loops t ts) s.value s.rest s.faults.length := by
  cases ts with
  | nil =>
    simp only [stmt, hk, Option.some.injEq] at h
    subst h
    exact absurd hc (Step.not_clean_of_mem (List.mem_singleton_self _) (by simp))
  | cons x ts =>
    simp only [stmt, hk] at h
    split at h
    · next hx =>
      split at h
      · exact absurd hc (Step.not_clean_of_report h (List.mem_singleton_self _)
          (by simp [unexpected]))
      · next ts' hp =>
        -- Behind the name there is the sign of a binding, and then its value.
        obtain ⟨a, ha, rfl⟩ := expect?_eq_some.1 hp
        simp only [Option.bind_eq_bind, Option.bind_eq_some_iff, Option.some.injEq] at h
        obtain ⟨e, he, rfl⟩ := h
        exact .bind hk hx ha (ih (.expr loops Power.lowest ts') e he hc)
    · exact absurd hc (Step.not_clean_of_report h (List.mem_singleton_self _) (by simp))

/-- A statement without faults follows the rule for its keyword, or for expressions. -/
theorem stmt_follows (ih : Follows fuel) {s : Step (Option Stmt)}
    (h : stmt (fuel + 1) loops t ts = some s) (hc : s.Clean) :
    Reads (.stmt loops t ts) s.value s.rest s.faults.length := by
  by_cases hl : t.kind = .kwLet
  · exact stmt_bind_follows ih hl h hc
  by_cases hr : t.kind = .kwReturn
  · rw [stmt_of_kwReturn hr] at h
    split at h
    · next he =>
      rw [Option.some.injEq] at h
      subst h
      exact .bareReturn hr he
    · simp only [Option.bind_eq_some_iff, Option.some.injEq] at h
      obtain ⟨e, he, rfl⟩ := h
      exact .valueReturn hr (ih (.expr loops Power.lowest ts) e he hc)
  by_cases hb : t.kind = .kwBreak
  · rw [stmt_of_kwBreak hb, Option.some.injEq] at h
    subst h
    -- This is the one report that a clean step may hold.
    have hlen : (if loops = 0 then [Diagnostic.strayBreak] else []).length =
        if loops = 0 then 1 else 0 := by split <;> rfl
    simp only [hlen]
    exact .brk hb
  · rw [stmt_of_expr hl hr hb] at h
    simp only [Option.bind_eq_some_iff] at h
    obtain ⟨e, he, h⟩ := h
    have he' := ih (.expr loops Power.lowest (t :: ts)) e he
    split at h <;> rw [Option.some.injEq] at h <;> subst h
    -- An expression that is missing has been reported.
    · next hm =>
      cases hv : e.value with
      | missing => exact absurd hv (he' hc).present
      | _ => simp [hv, Expr.isMissing] at hm
    · exact .exprStmt (he' hc)

end

/-- **A clean call follows the rules.**  By induction on the bound.  Any fault of a part is a fault
    of the whole, so parts of clean calls are clean. -/
theorem reads_of_run (fuel : Nat) : Follows fuel := by
  -- Every call that a function makes has a smaller bound than the function.
  induction fuel with
  | zero =>
    intro k s h
    exact absurd h (by simp [Task.run_zero])
  | succ fuel ih =>
    intro k s h hc
    cases k with
    | expr => exact expr_follows ih h hc
    | operand => exact operand_follows ih h hc
    | operators => exact operators_follows ih h hc
    | args => exact args_follows ih h hc
    | moreArgs => exact moreArgs_follows ih h hc
    | condition => exact condition_follows ih h hc
    | choice => exact choice_follows ih h hc
    | block => exact block_follows ih h hc
    | body => exact body_follows ih h hc
    | stmt => exact stmt_follows ih h hc

/-! ### Whole sources -/

/-- A source without other faults, under whatever bound, is read by the rules. -/
theorem readsAll_of_program {fuel : Nat} {ts : List Token} {s : Step (List Stmt)}
    (h : program fuel ts = some s) (hc : s.Clean) : ReadsAll ts s.value s.faults.length := by
  induction fuel generalizing ts s with
  | zero => exact absurd h (by simp [program])
  | succ fuel ih =>
    cases ts with
    | nil =>
      rw [program, Option.some.injEq] at h
      subst h
      exact .nil
    | cons t ts =>
      simp only [program, Option.bind_eq_bind, Option.bind_eq_some_iff, Option.some.injEq] at h
      obtain ⟨st, hst, ss, hss, rfl⟩ := h
      obtain ⟨hcs, hcss⟩ := Step.clean_after.1 hc
      -- The first statement follows the rules, and what it leaves is read by induction.
      have hread := reads_of_run fuel (.stmt 0 t ts) st hst hcs
      cases hv : st.value with
      | none => exact absurd hv hread.present
      | some v =>
        rw [hv] at hread
        simp only [Step.after, Step.map, Option.toList_some, List.singleton_append,
          List.length_append]
        exact .cons hread (ih hss hcss)

end Parser

/-- **A source whose faults are all stray breaks is read by the rules.** -/
theorem readsAll_of_parseTokens {ts : List Token}
    (h : ∀ d ∈ (parseTokens ts).diagnostics, d = .strayBreak) :
    Parser.ReadsAll ts (parseTokens ts).program.stmts (parseTokens ts).diagnostics.length := by
  obtain ⟨s, hs, -⟩ := Parser.program_total (Nat.le_refl (Parser.enough ts.length))
  have hp : parseTokens ts = ⟨⟨s.value⟩, s.faults⟩ := by rw [parseTokens, hs]
  rw [hp] at h ⊢
  exact Parser.readsAll_of_program hs h

/-- A source without faults is read by the rules. -/
theorem readsAll_of_parse {source : String} (h : (parse source).diagnostics = []) :
    Parser.ReadsAll (tokenize source.toList) (parse source).program.stmts 0 := by
  have hreads : Parser.ReadsAll (tokenize source.toList) (parse source).program.stmts
      (parse source).diagnostics.length := by
    refine readsAll_of_parseTokens fun d hd => ?_
    have hd' : d ∈ (parse source).diagnostics := hd
    rw [h] at hd'
    exact absurd hd' (by simp)
  rwa [h, List.length_nil] at hreads

end Incognita
