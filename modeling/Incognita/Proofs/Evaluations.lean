import Incognita.Proofs.Jobs

namespace Incognita

/-!
# Eval — evaluations that end

The bound on the nesting of evaluations is no part of what a tree evaluates to: a tree that ends
under some bound ends with the same result under every larger one.

* `Eval.program_mono` — the statements of a program under a larger bound;
* `Eval.Calls` — a call ends with a result and a store, under whatever bound;
* `Node.Evaluates` — a tree evaluates to a result and a store, under whatever bound;
* `Node.Evaluates.unique` — to one result and one store only.
-/

namespace Eval

variable {fuel fuel' : Nat} {ctx : Context} {ss : List Stmt} {last r r' : Result} {s t t' : Store}

/-- Under a larger bound the statements of a program go on as under the smaller one. -/
theorem program_goes (fuel more : Nat) (ctx : Context) (ss : List Stmt) (last : Result)
    (s : Store) :
    (program fuel ctx ss last s).Rel True Same (program (fuel + more) ctx ss last s) := by
  induction fuel generalizing ss last s with
  | zero =>
    simp only [program]
    exact .outOfFuel trivial
  | succ fuel ih =>
    rw [Nat.succ_add]
    cases ss with
    | nil => simp only [program]; exact Job.done_same _ _
    | cons st ss =>
      simp only [program]
      -- A larger bound makes no difference to the first statement, and by induction none to the
      -- others.
      have hstmt : (stmt fuel ctx st s).Rel True Same (stmt (fuel + more) ctx st s) :=
        Job.goes_add fuel more (.stmt st) ctx s
      refine Job.bind_same hstmt fun r s => ?_
      split
      · exact Job.done_same _ _
      · exact Job.done_same _ _
      · exact Job.done_same _ _
      · exact ih ss _ s

/-- The call ends with a result and a store, under some bound. -/
def Calls (ctx : Context) (f : Value) (vs : List Value) (s : Store) (r : Result) (t : Store) :
    Prop :=
  ∃ fuel, call fuel ctx f vs s = .done r t

/-- **A program that ends gives the same under any larger bound.**  Programs are no jobs, so
    `Job.run_mono` is taken through their statements. -/
theorem program_mono (hle : fuel ≤ fuel') (h : program fuel ctx ss last s = .done r t) :
    program fuel' ctx ss last s = .done r t := by
  obtain ⟨more, rfl⟩ := Nat.exists_eq_add_of_le hle
  have hg := program_goes fuel more ctx ss last s
  rw [h] at hg
  obtain ⟨r', t', hr, rfl, rfl⟩ := hg.exists_right
  exact hr

/-- A program has one result, whatever the bounds it ends under. -/
theorem program_unique (h : program fuel ctx ss last s = .done r t)
    (h' : program fuel' ctx ss last s = .done r' t') : r = r' ∧ t = t' := by
  have hm := program_mono (Nat.le_max_left fuel fuel') h
  have hm' := program_mono (Nat.le_max_right fuel fuel') h'
  rw [hm, Outcome.done.injEq] at hm'
  exact hm'

end Eval

namespace Node

variable {n : Node} {ctx : Context} {s t t' : Store} {r r' : Result}

/-- The tree evaluates to a result and a store, under some bound. -/
def Evaluates (ctx : Context) (n : Node) (s : Store) (r : Result) (t : Store) : Prop :=
  ∃ fuel, n.evalWithin fuel ctx s = .done r t

/-- **A tree evaluates to one result and one store**, whatever the bound.  Two evaluations are
    compared under the larger of their bounds. -/
theorem Evaluates.unique (h : n.Evaluates ctx s r t) (h' : n.Evaluates ctx s r' t') :
    r = r' ∧ t = t' := by
  obtain ⟨fuel, hf⟩ := h
  obtain ⟨fuel', hf'⟩ := h'
  cases n with
  | program p => exact Eval.program_unique hf hf'
  | stmt st => exact @Eval.Job.run_unique _ _ _ _ (.stmt st) _ _ _ _ hf hf'
  | expr e => exact @Eval.Job.run_unique _ _ _ _ (.expr e) _ _ _ _ hf hf'

end Node

end Incognita
