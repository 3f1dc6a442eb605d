import Incognita.Proofs.Restoring
import Incognita.Session

namespace Incognita

/-!
# Session — what a source does to a session

A source with faults leaves a session as it was, and so does asking for a tree.  Any other source
is evaluated, and that changes the store of the session and nothing else: the evaluator is left in
no environment and with no call under way, however the evaluation ends.

* `Session.context` — where the sources of a session are evaluated;
* `Session.evaluateWithin_eq_some_iff` — an evaluation as one of `Eval`, in that context;
* `Session.run_cases`, `Session.print_cases`, `Session.tree_session` — what each of them does;
* `Session.Reached` — the sessions that any number of sources lead to;
* `Reached.of_evaluate` — what evaluations keep holds of every session that is reached;
* `Reached.depth_eq`, `Reached.env_eq` — between two sources no call is under way.
-/

/-- A source that is not rejected has no faults. -/
theorem diagnostics_of_error? {p : Parsed} (h : p.error? = none) : p.diagnostics = [] := by
  rw [Parsed.error?] at h
  split at h
  · next hd => exact List.isEmpty_iff.1 hd
  · exact absurd h (by simp)

namespace Session

variable {s : Session} {source : String} {fuel : Nat}

/-! ### One source -/

/-- Where the sources of the session are evaluated: in its first scope, as deep as the evaluator
    says, which is not at all unless it is in use. -/
def context (s : Session) : Context := ⟨.root, s.depth, s.limit⟩

/-- The turn of a source that was evaluated with a result and a store.  The calls that it has noted
    down go to the log and do not stay. -/
def evaluated (s : Session) (p : Parsed) (r : Result) (store : Store) : Turn Result where
  result := r
  session := { s with store := { store with calls := [] } }
  log := parsedEntry p :: store.calls.reverse.map Log.Entry.called

/-- **An evaluation changes the store of a session and nothing else.**  The evaluator puts back the
    depth and the environment that it was in, whatever the program does. -/
theorem evaluateWithin_eq_some_iff {p : Parsed} {t : Turn Result} :
    s.evaluateWithin fuel p = some t ↔
      ∃ r store, Eval.program fuel s.context p.program.stmts none s.store = .done r store ∧
        t = s.evaluated p r store := by
  have hprogram : (Node.program p.program).evalWithin fuel ⟨.root, s.evaluator.depth,
      s.evaluator.limit⟩ s.evaluator.store =
        Eval.program fuel s.context p.program.stmts none s.store := rfl
  rw [evaluateWithin, Evaluator.evaluate_eq, hprogram]
  cases Eval.program fuel s.context p.program.stmts none s.store with
  | done r store =>
    constructor
    · intro h
      exact ⟨r, store, rfl, (Option.some.inj h).symm⟩
    · rintro ⟨_, _, hd, rfl⟩
      obtain ⟨rfl, rfl⟩ := Outcome.done.inj hd
      rfl
  | fault | outOfFuel => simp

/-- A source is run by evaluating it, unless it has faults. -/
theorem run_cases {t : Turn (Except String Result)} (h : s.runWithin fuel source = some t) :
    (t.session = s ∧ ∃ message, t.result = .error message) ∨
    ((parse source).diagnostics = [] ∧ ∃ u, s.evaluateWithin fuel (parse source) = some u ∧
      t.session = u.session ∧ t.result = .ok u.result) := by
  simp only [runWithin] at h
  split at h
  · next message _ =>
    obtain rfl := Option.some.inj h
    exact .inl ⟨rfl, message, rfl⟩
  · next hp =>
    simp only [Option.bind_eq_bind, Option.bind_eq_some_iff, Option.some.injEq] at h
    obtain ⟨u, hu, rfl⟩ := h
    exact .inr ⟨diagnostics_of_error? hp, u, hu, rfl, rfl⟩

/-- The value of a source is printed by evaluating it, unless it has faults. -/
theorem print_cases {t : Turn Bool} (h : s.printWithin fuel source = some t) :
    t.session = s ∨ ((parse source).diagnostics = [] ∧
      ∃ u, s.evaluateWithin fuel (parse source) = some u ∧ t.session = u.session) := by
  simp only [printWithin] at h
  split at h
  · obtain rfl := Option.some.inj h
    exact .inl rfl
  · next hp =>
    simp only [Option.bind_eq_bind, Option.bind_eq_some_iff] at h
    obtain ⟨u, hu, h⟩ := h
    refine .inr ⟨diagnostics_of_error? hp, u, hu, ?_⟩
    split at h
    · exact (congrArg Turn.session (Option.some.inj h)).symm
    · obtain ⟨text, -, h⟩ := Option.bind_eq_some_iff.1 h
      split at h <;> exact (congrArg Turn.session (Option.some.inj h)).symm

/-- Asking for a tree evaluates nothing. -/
theorem tree_session {t : Turn (Except String String)} (h : s.tree source = some t) :
    t.session = s := by
  simp only [tree] at h
  split at h
  · obtain rfl := Option.some.inj h
    rfl
  · simp only [Option.bind_eq_bind, Option.bind_eq_some_iff, Option.some.injEq] at h
    obtain ⟨outline, -, rfl⟩ := h
    rfl

/-! ### Any number of sources -/

/-- The sessions that running, printing and outlining sources lead to, in any order and number and
    each under a bound of its own, from one in which nothing has run. -/
inductive Reached (paint : Paint) (settings : Settings) : Session → Prop
  /-- The session in which nothing has run. -/
  | start : Reached paint settings (.ofSettings paint settings)
  /-- After running a source, whatever has come of it. -/
  | run {s : Session} {source : String} {t : Turn (Except String Result)} (fuel : Nat)
      (hs : Reached paint settings s) (ht : s.runWithin fuel source = some t) :
      Reached paint settings t.session
  /-- After printing the result of a source. -/
  | print {s : Session} {source : String} {t : Turn Bool} (fuel : Nat)
      (hs : Reached paint settings s) (ht : s.printWithin fuel source = some t) :
      Reached paint settings t.session
  /-- After giving the tree of a source. -/
  | tree {s : Session} {source : String} {t : Turn (Except String String)}
      (hs : Reached paint settings s) (ht : s.tree source = some t) :
      Reached paint settings t.session

/-- **What holds at the start and is kept by evaluations holds of every session.**  Trees and faulty
    sources leave the session as it is, so only runs of the evaluator have to be looked at. -/
theorem Reached.of_evaluate {paint : Paint} {settings : Settings} {P : Session → Prop}
    (start : P (.ofSettings paint settings))
    (step : ∀ {s source fuel r store}, P s → (parse source).diagnostics = [] →
      Eval.program fuel s.context (parse source).program.stmts none s.store = .done r store →
      P { s with store := { store with calls := [] } })
    (h : Reached paint settings s) : P s := by
  have hstep : ∀ {s : Session} {source fuel u}, P s → (parse source).diagnostics = [] →
      s.evaluateWithin fuel (parse source) = some u → P u.session := by
    intro s source fuel u hs hp hu
    obtain ⟨r, store, hd, rfl⟩ := evaluateWithin_eq_some_iff.1 hu
    exact step hs hp hd
  -- A source that is not evaluated leaves the session as it was.
  induction h with
  | start => exact start
  | run fuel _ ht ih =>
    rcases run_cases ht with ⟨heq, -⟩ | ⟨hp, u, hu, heq, -⟩
    · rwa [heq]
    · rw [heq]
      exact hstep ih hp hu
  | print fuel _ ht ih =>
    rcases print_cases ht with heq | ⟨hp, u, hu, heq⟩
    · rwa [heq]
    · rw [heq]
      exact hstep ih hp hu
  | tree _ ht ih => rwa [tree_session ht]

/-- **Between two sources no call is under way**, however many have failed before. -/
theorem Reached.depth_eq {paint : Paint} {settings : Settings} (h : Reached paint settings s) :
    s.depth = 0 :=
  h.of_evaluate (P := fun s => s.depth = 0) rfl fun hs _ _ => hs

/-- Between two sources the evaluator is in no environment. -/
theorem Reached.env_eq {paint : Paint} {settings : Settings} (h : Reached paint settings s) :
    s.env = none :=
  h.of_evaluate (P := fun s => s.env = none) rfl fun hs _ _ => hs

/-- The limit on nested calls stays what the settings say. -/
theorem Reached.limit_eq {paint : Paint} {settings : Settings} (h : Reached paint settings s) :
    s.limit = settings.limit :=
  h.of_evaluate (P := fun s => s.limit = settings.limit) rfl fun hs _ _ => hs

end Session

end Incognita
