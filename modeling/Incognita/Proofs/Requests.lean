import Incognita.CommandLine.Interactive
import Incognita.CommandLine.Libraries
import Incognita.Proofs.Rendering.Parameters
import Incognita.Proofs.Termination

namespace Incognita

/-!
# Session — what requests leave behind

A session can be asked to run a source, to print its value, to give its tree, or to do one of the
last two for an exit code.  Only the evaluation of a source without faults leaves anything behind,
and whoever asks for it, it is the same evaluation.  All of this is said for every bound on the
nesting of evaluations, `Eval.ample` among them, and for every library that colours texts.

* `Request`, `Request.doneWithin` — the requests, and the session after one;
* `Request.counts`, `Request.doneWithin_of_not_counts` — those that leave something behind, and that
  the others leave the session as it was;
* `Session.Ends` — a session after any number of requests;
* `Session.ends_filter`, `Session.Ends.unique` — only the requests that count make a difference;
* `Session.Named`, `Session.Ends.named` — sessions in which no function lacks a parameter, as all
  are that requests lead to;
* `Session.Alike`, `Session.alike` — what running, printing and executing a source have in common;
* `Paint.Lawful` — what is known of a library that colours texts;
* `Session.requests_leave_no_trace` — all of this for every session.
-/

/-- What a session can be asked. -/
inductive Request where
  /-- Give the result to the caller, or the diagnostics. -/
  | run (source : String)
  /-- Print the result, or the diagnostics. -/
  | print (source : String)
  /-- Give the outline of the tree, and evaluate nothing. -/
  | tree (source : String)
  /-- Print the outline of the tree, or the result, and give an exit code. -/
  | execute (asTree : Bool) (source : String)
  deriving DecidableEq

namespace Request

/-- The source that the request is about. -/
def source : Request → String
  | run source | print source | tree source | execute _ source => source

/-- Whether the request is to evaluate its source. -/
def evaluates : Request → Bool
  | run _ | print _ => true
  | tree _ => false
  | execute asTree _ => !asTree

/-- Whether the request is to evaluate its source, and the source has no faults. -/
def counts (r : Request) : Bool := r.evaluates && (parse r.source).diagnostics.isEmpty

/-- The session after the request, under a bound on the nesting of evaluations. -/
def doneWithin (fuel : Nat) (s : Session) : Request → Option Session
  | run source => (s.runWithin fuel source).map Turn.session
  | print source => (s.printWithin fuel source).map Turn.session
  | tree source => (s.tree source).map Turn.session
  | execute asTree source => (s.executeWithin fuel asTree source).map Turn.session

end Request

namespace Session

variable {s s' s'' : Session} {fuel : Nat} {source : String}

/-! ### One source -/

theorem error?_of_clean (h : (parse source).diagnostics = []) : (parse source).error? = none := by
  simp [Parsed.error?, h]

theorem error?_of_faulty (h : (parse source).diagnostics ≠ []) :
    (parse source).error? = some (Diagnostic.summary (parse source).diagnostics) := by
  simp [Parsed.error?, h]

/-- What running a source gives after its evaluation. -/
def ran (t : Turn Result) : Turn (Except String Result) where
  result := .ok t.result
  session := t.session
  log := t.log ++ [.evaluated (t.result.map Value.kind)]

/-- A value as the session prints it: an error is printed in red. -/
def shownText (s : Session) (v : Value) (text : String) : String :=
  if v.kind = .error then s.red text else text

/-- What printing a source gives after its evaluation, unless its value cannot be shown. -/
def shown (s : Session) (t : Turn Result) : Option (Turn Bool) :=
  match t.result with
  | none => some (t.answer true [])
  | some v => v.inspect.map fun text => t.answer (!v.isError) [.out (s.shownText v text ++ "\n")]

/-- Writing the result out changes neither the session nor the log. -/
theorem shown_session {t : Turn Result} {u : Turn Bool} (h : s.shown t = some u) :
    u.session = t.session ∧ u.log = t.log := by
  rw [shown] at h
  split at h
  · obtain rfl := Option.some.inj h
    exact ⟨rfl, rfl⟩
  · obtain ⟨text, -, rfl⟩ := Option.map_eq_some_iff.1 h
    exact ⟨rfl, rfl⟩

/-- `Value.isError` asks for the kind of a value and nothing else. -/
theorem isError_iff {v : Value} : v.isError = true ↔ v.kind = .error := by
  cases v <;> simp [Value.isError, Value.kind]

/-- A source without faults is run by evaluating it. -/
theorem runWithin_of_clean (h : (parse source).diagnostics = []) :
    s.runWithin fuel source = (s.evaluateWithin fuel (parse source)).map ran := by
  simp only [runWithin, error?_of_clean h]
  cases s.evaluateWithin fuel (parse source) <;> rfl

/-- A source without faults is evaluated, and then its value is shown. -/
theorem printWithin_of_clean (h : (parse source).diagnostics = []) :
    s.printWithin fuel source = (s.evaluateWithin fuel (parse source)).bind s.shown := by
  simp only [printWithin, error?_of_clean h]
  refine congrArg (Option.bind _) (funext fun t => ?_)
  obtain ⟨result, session, log, printed⟩ := t
  cases result with
  | none => rfl
  | some v =>
    cases hv : v.inspect with
    | none => simp [shown, hv]
    | some text => cases v <;> simp [shown, hv, shownText, Value.isError, Value.kind]

/-- Faults are what running their source gives. -/
theorem runWithin_of_faulty (h : (parse source).diagnostics ≠ []) :
    s.runWithin fuel source = some (s.rejected (parse source)
      (.error (Diagnostic.summary (parse source).diagnostics)) []) := by
  simp only [runWithin, error?_of_faulty h]

/-- Faults are what printing their source prints. -/
theorem printWithin_of_faulty (h : (parse source).diagnostics ≠ []) :
    s.printWithin fuel source =
      some (s.rejected (parse source) false (s.faultLines (parse source))) := by
  simp only [printWithin, error?_of_faulty h]

/-- What executing a source gives after printing it. -/
def executed (t : Turn Bool) : Turn Nat := t.answer (if t.result then 0 else 1) t.printed

/-- To execute a source is to print it, unless its tree is asked for. -/
theorem executeWithin_value :
    s.executeWithin fuel false source = (s.printWithin fuel source).map executed := by
  rw [executeWithin]
  cases s.printWithin fuel source <;> rfl

/-- **Every source has a tree or faults**: what is read of a source can be written out.  The parser
    gives every function its parameters, and the writer of trees needs nothing else. -/
theorem tree_ends (s : Session) (source : String) : ∃ t, s.tree source = some t := by
  have hnamed : (Node.program (parse source).program).Every Node.Named :=
    Stmt.EveryAll.mono (fun _ => Node.Whole.named) (intact_of_parse source)
  obtain ⟨-, outline, houtline⟩ := Node.rendered_iff.2 hnamed
  have hprogram : (parse source).program.outline = some outline := houtline
  rw [tree]
  split
  · exact ⟨_, rfl⟩
  · rw [hprogram]
    exact ⟨_, rfl⟩

/-- Printing a tree leaves the session as it was. -/
theorem executeWithin_tree :
    ∃ t, s.executeWithin fuel true source = some t ∧ t.session = s ∧
      ∃ u, s.tree source = some u ∧ t.log = u.log := by
  obtain ⟨u, hu⟩ := s.tree_ends source
  rw [executeWithin, if_pos rfl, hu, Option.bind_eq_bind, Option.bind_some]
  split <;> exact ⟨_, rfl, tree_session hu, u, rfl, rfl⟩

/-- The session after a source is evaluated, if it has no faults. -/
def afterWithin (fuel : Nat) (s : Session) (source : String) : Option Session :=
  if (parse source).diagnostics = [] then
    (s.evaluateWithin fuel (parse source)).map Turn.session
  else some s

/-- What a run leaves behind is what the evaluation does, with or without diagnostics. -/
theorem runWithin_session :
    (s.runWithin fuel source).map Turn.session = s.afterWithin fuel source := by
  rw [afterWithin]
  split
  · next h =>
    rw [runWithin_of_clean h, Option.map_map]
    rfl
  · next h =>
    rw [runWithin_of_faulty h]
    rfl

/-- When printing a source ends, it leaves what evaluating it leaves. -/
theorem printWithin_session {u : Turn Bool} (h : s.printWithin fuel source = some u) :
    s.afterWithin fuel source = some u.session := by
  rw [afterWithin]
  split
  · next hclean =>
    rw [printWithin_of_clean hclean] at h
    obtain ⟨t, ht, hu⟩ := Option.bind_eq_some_iff.1 h
    rw [ht, (shown_session hu).1]
    rfl
  · next hfaulty =>
    rw [printWithin_of_faulty hfaulty] at h
    rw [← Option.some.inj h]
    rfl

/-- The session after a source does not depend on the bound. -/
theorem afterWithin_unique {fuel' : Nat} (h : s.afterWithin fuel source = some s')
    (h' : s.afterWithin fuel' source = some s'') : s' = s'' := by
  rw [afterWithin] at h h'
  split at h
  · next hclean =>
    rw [if_pos hclean] at h'
    obtain ⟨_, ht, rfl⟩ := Option.map_eq_some_iff.1 h
    obtain ⟨_, ht', rfl⟩ := Option.map_eq_some_iff.1 h'
    obtain ⟨r, store, hend, rfl⟩ := evaluateWithin_eq_some_iff.1 ht
    obtain ⟨r', store', hend', rfl⟩ := evaluateWithin_eq_some_iff.1 ht'
    obtain ⟨rfl, rfl⟩ := Eval.program_unique hend hend'
    rfl
  · next hfaulty =>
    rw [if_neg hfaulty] at h'
    rw [← Option.some.inj h, Option.some.inj h']

end Session

/-! ### One request -/

namespace Request

variable {s s' s'' : Session} {fuel : Nat} {r : Request}

/-- A request that evaluates its source leaves what the evaluation leaves. -/
theorem doneWithin_of_evaluates (hr : r.evaluates = true) (h : r.doneWithin fuel s = some s') :
    s.afterWithin fuel r.source = some s' := by
  cases r with
  | run source => exact Session.runWithin_session.symm.trans h
  | print source =>
    obtain ⟨u, hu, rfl⟩ := Option.map_eq_some_iff.1 h
    exact Session.printWithin_session hu
  | tree source => exact absurd hr (by simp [evaluates])
  | execute asTree source =>
    cases asTree with
    | true => exact absurd hr (by simp [evaluates])
    | false =>
      rw [doneWithin, Session.executeWithin_value, Option.map_map] at h
      obtain ⟨u, hu, rfl⟩ := Option.map_eq_some_iff.1 h
      exact Session.printWithin_session hu

/-- **A request that does not count leaves no trace.**  It is turned down before anything is
    evaluated, or shows the tree, which is no part of the state. -/
theorem doneWithin_of_not_counts (h : ¬ r.counts = true) : r.doneWithin fuel s = some s := by
  have hfaulty : r.evaluates = true → (parse r.source).diagnostics ≠ [] :=
    fun hr => by simpa [counts, hr] using h
  cases r with
  | run source =>
    have hdone := @Session.runWithin_of_faulty s fuel source (hfaulty rfl)
    rw [doneWithin, hdone]
    rfl
  | print source =>
    have hdone := @Session.printWithin_of_faulty s fuel source (hfaulty rfl)
    rw [doneWithin, hdone]
    rfl
  | tree source =>
    obtain ⟨t, ht⟩ := s.tree_ends source
    rw [doneWithin, ht, Option.map_some, Session.tree_session ht]
  -- Which of the two ways it goes depends on the flag for the tree.
  | execute asTree source =>
    cases asTree with
    | true =>
      obtain ⟨t, ht, hsession, -⟩ := @Session.executeWithin_tree s fuel source
      rw [doneWithin, ht, Option.map_some, hsession]
    | false =>
      have hdone := @Session.printWithin_of_faulty s fuel source (hfaulty rfl)
      rw [doneWithin, Session.executeWithin_value, hdone]
      rfl

/-- The session after a request does not depend on the bound. -/
theorem doneWithin_unique {fuel' : Nat} (h : r.doneWithin fuel s = some s')
    (h' : r.doneWithin fuel' s = some s'') : s' = s'' := by
  by_cases hr : r.counts = true
  · have hevaluates := (Bool.and_eq_true_iff.1 hr).1
    exact Session.afterWithin_unique (doneWithin_of_evaluates hevaluates h)
      (doneWithin_of_evaluates hevaluates h')
  · rw [doneWithin_of_not_counts hr] at h h'
    rw [← Option.some.inj h, Option.some.inj h']

end Request

namespace Session

/-! ### Any number of requests -/

/-- The requests end, one after another, and lead from the first session to the second one. -/
inductive Ends : Session → List Request → Session → Prop
  | nil {s : Session} : Ends s [] s
  | cons {s mid s' : Session} {r : Request} {rs : List Request} (fuel : Nat)
      (h : r.doneWithin fuel s = some mid) (hs : Ends mid rs s') : Ends s (r :: rs) s'

variable {s s' s'' : Session} {fuel : Nat} {source : String} {rs : List Request}

/-- A request that does not count may be dropped from the front of a run of requests. -/
theorem ends_cons_of_not_counts {r : Request} (h : ¬ r.counts = true) :
    s.Ends (r :: rs) s' ↔ s.Ends rs s' := by
  constructor
  · rintro (_ | ⟨fuel, hdone, hs⟩)
    rw [Request.doneWithin_of_not_counts h] at hdone
    rwa [Option.some.inj hdone]
  · exact .cons 0 (Request.doneWithin_of_not_counts h)

/-- Only the requests that count make a difference. -/
theorem ends_filter : s.Ends rs s' ↔ s.Ends (rs.filter Request.counts) s' := by
  induction rs generalizing s with
  | nil => exact Iff.rfl
  | cons r rs ih =>
    by_cases hr : r.counts = true
    · rw [List.filter_cons_of_pos hr]
      constructor
      · rintro (_ | ⟨fuel, hdone, hs⟩)
        exact .cons fuel hdone (ih.1 hs)
      · rintro (_ | ⟨fuel, hdone, hs⟩)
        exact .cons fuel hdone (ih.2 hs)
    · rw [List.filter_cons_of_neg hr, ends_cons_of_not_counts hr, ih]

/-- Requests that end lead to one session. -/
theorem Ends.unique (h : s.Ends rs s') (h' : s.Ends rs s'') : s' = s'' := by
  induction h with
  | nil =>
    cases h'
    rfl
  | cons fuel hdone _ ih =>
    obtain _ | ⟨fuel', hdone', hs'⟩ := h'
    obtain rfl := Request.doneWithin_unique hdone hdone'
    exact ih hs'

/-- **What evaluations keep, requests keep.**  A request is an evaluation of a source without
    faults, or leaves the session alone, so one step is enough for any property of sessions. -/
theorem Ends.of_evaluate {P : Session → Prop}
    (step : ∀ {s source fuel r store}, P s → (parse source).diagnostics = [] →
      Eval.program fuel s.context (parse source).program.stmts none s.store = .done r store →
      P { s with store := { store with calls := [] } })
    (h : s.Ends rs s') (hs : P s) : P s' := by
  induction h with
  | nil => exact hs
  | @cons s mid s' r rs fuel hdone _ ih =>
    refine ih ?_
    by_cases hr : r.counts = true
    · obtain ⟨hevaluates, hclean⟩ := Bool.and_eq_true_iff.1 hr
      have hclean : (parse r.source).diagnostics = [] := List.isEmpty_iff.1 hclean
      have hafter := Request.doneWithin_of_evaluates hevaluates hdone
      rw [afterWithin, if_pos hclean] at hafter
      obtain ⟨_, ht, rfl⟩ := Option.map_eq_some_iff.1 hafter
      obtain ⟨x, store, hend, rfl⟩ := evaluateWithin_eq_some_iff.1 ht
      exact step hs hclean hend
    · rw [Request.doneWithin_of_not_counts hr] at hdone
      rwa [← Option.some.inj hdone]

/-- However often it is used, a session colours texts in one way. -/
theorem Ends.red_eq (h : s.Ends rs s') : s'.red = s.red :=
  h.of_evaluate (P := fun t => t.red = s.red) (fun hs _ _ => hs) rfl

/-! ### Functions that can be shown -/

/-- None of the functions that the session can get at lacks a parameter, nor does any function
    inside of them. -/
def Named (s : Session) : Prop := ∀ c, s.store.ReachesFrom .root c → c.Every Node.Named

/-- Nothing is bound in a session in which nothing has run. -/
theorem named_ofSettings (paint : Paint) (settings : Settings) :
    (ofSettings paint settings).Named := by
  intro c hc
  obtain ⟨i, -, x, v, hv, -⟩ := hc
  cases i <;> simp [ofSettings, Store.initial, Store.binding?] at hv

/-- A value can be shown if its function lacks no parameter. -/
theorem inspect_of_named {v : Value} (h : ∀ c, v.closure? = some c → c.Every Node.Named) :
    ∃ text, v.inspect = some text := by
  induction v with
  | fn c =>
    have hparams : none ∉ c.params := (h c rfl).1
    obtain ⟨names, hnames⟩ := Option.isSome_iff_exists.1 (Ident.isSome_present?_iff.2 hparams)
    rw [Value.inspect, Closure.signature, signature, hnames]
    exact ⟨_, rfl⟩
  | ret v ih => exact ih h
  | bool b => cases b <;> exact ⟨_, rfl⟩
  | int | str | null | err | brk => exact ⟨_, rfl⟩

/-- **What is evaluated leaves functions with all their parameters**, and so does its result hold
    one: they are functions of the source, or were there before. -/
theorem named_of_program (hs : s.Named) {r : Result} {store : Store}
    (h : Eval.program fuel s.context (parse source).program.stmts none s.store = .done r store) :
    ({ s with store := { store with calls := [] } } : Session).Named ∧
      ∀ v, r = some v → ∃ text, v.inspect = some text := by
  let named : Realm := .inSight s.store .root Node.Named True (.inl trivial)
  have hprogram : (Node.program (parse source).program).Every Node.Named :=
    Stmt.EveryAll.mono (fun _ => Node.Whole.named) (intact_of_parse source)
  have hwithin := @Node.evalWithin_within named (.program (parse source).program) fuel s.context
    s.store hprogram Realm.inSight_path (Realm.inSight_hasStore hs)
  have heval : (Node.program (parse source).program).evalWithin fuel s.context s.store =
      .done r store := h
  rw [heval] at hwithin
  obtain ⟨hstore, hresult⟩ := hwithin
  refine ⟨fun c hc => ?_, fun v hv => ?_⟩
  -- What can be reached does not depend on the calls that were noted down.
  · have hbound : named.HasStore { store with calls := [] } := ⟨hstore.start, hstore.bound⟩
    exact (hbound.of_reachesFrom Realm.inSight_path hc).1
  · subst hv
    exact inspect_of_named fun c hc => (hresult v (by simp) c hc).1

/-- Requests lead from sessions whose functions have their parameters to others like them. -/
theorem Ends.named (h : s.Ends rs s') (hs : s.Named) : s'.Named :=
  h.of_evaluate (P := Named) (fun hs _ hend => (named_of_program hs hend).1) hs

/-! ### What evaluating requests have in common -/

/-- What running a source in a session, printing it and executing it give, side by side. -/
structure Alike (s : Session) (source : String) (ran : Turn (Except String Result))
    (printed : Turn Bool) (executed : Turn Nat) : Prop where
  /-- Printing leaves the session that running leaves. -/
  print_session : printed.session = ran.session
  /-- So does executing. -/
  execute_session : executed.session = ran.session
  /-- Running fails when the source has faults, and only then. -/
  failed : (∃ message, ran.result = .error message) ↔ (parse source).diagnostics ≠ []
  /-- Printing is told to have failed when running fails or gives an error. -/
  print_false : printed.result = false ↔
    (∃ message, ran.result = .error message) ∨
      ∃ v, ran.result = .ok (some v) ∧ v.kind = .error
  /-- The exit code says whether printing has failed. -/
  code : executed.result = if printed.result then 0 else 1
  /-- Without a value nothing is printed, no line end either. -/
  printed_none : ran.result = .ok none → printed.printed = []
  /-- A value is printed as it is shown, and an error in red. -/
  printed_value : ∀ v, ran.result = .ok (some v) → ∃ text, v.inspect = some text ∧
    printed.printed = [.out ((if v.kind = .error then s.red text else text) ++ "\n")]
  /-- Faults are printed one by one below a heading in red. -/
  printed_faults : (parse source).diagnostics ≠ [] →
    printed.printed = .err (s.red "Errores de análisis:" ++ "\n") ::
      (parse source).diagnostics.map fun d => .err ("\t" ++ d.message ++ "\n")
  /-- Executing prints what printing prints. -/
  executed_printed : executed.printed = printed.printed

/-- The three ways to handle a faulty source agree, and none of them evaluates. -/
theorem alike_of_faulty (s : Session) (h : (parse source).diagnostics ≠ []) (message : String) :
    Alike s source (s.rejected (parse source) (.error message) [])
      (s.rejected (parse source) false (s.faultLines (parse source)))
      (executed (s.rejected (parse source) false (s.faultLines (parse source)))) where
  print_session := rfl
  execute_session := rfl
  failed := iff_of_true ⟨message, rfl⟩ h
  print_false := iff_of_true rfl (.inl ⟨message, rfl⟩)
  code := rfl
  printed_none := nofun
  printed_value := nofun
  printed_faults := fun _ => rfl
  executed_printed := rfl

/-- The three ways to handle a clean source agree when its result can be written out. -/
theorem alike_of_clean (h : (parse source).diagnostics = []) {t : Turn Result} {u : Turn Bool}
    (hu : s.shown t = some u) : Alike s source (ran t) u (executed u) where
  print_session := (shown_session hu).1
  execute_session := (shown_session hu).1
  failed := iff_of_false nofun fun hfaulty => hfaulty h
  print_false := by
    obtain ⟨result, session, log, printed⟩ := t
    cases result with
    | none =>
      obtain rfl := Option.some.inj hu
      simp [ran, Turn.answer]
    | some v =>
      obtain ⟨text, -, rfl⟩ := Option.map_eq_some_iff.1 hu
      simp [ran, Turn.answer, ← isError_iff]
  code := rfl
  -- A run without a result prints nothing, not even a line end.
  printed_none := by
    intro hnone
    have hresult : t.result = none := Except.ok.inj hnone
    rw [shown, hresult] at hu
    rw [← Option.some.inj hu]
    rfl
  printed_value := by
    intro v hv
    have hresult : t.result = some v := Except.ok.inj hv
    rw [shown, hresult] at hu
    obtain ⟨text, htext, rfl⟩ := Option.map_eq_some_iff.1 hu
    exact ⟨text, htext, rfl⟩
  printed_faults := fun hfaulty => absurd h hfaulty
  executed_printed := rfl

/-- The ways to evaluate a source agree: under the bound either none of them ends, or all of them
    do, and then they are alike. -/
def Agree (fuel : Nat) (s : Session) (source : String) : Prop :=
  (s.runWithin fuel source = none ∧ s.printWithin fuel source = none ∧
    s.executeWithin fuel false source = none) ∨
  ∃ t u x, s.runWithin fuel source = some t ∧ s.printWithin fuel source = some u ∧
    s.executeWithin fuel false source = some x ∧ Alike s source t u x

/-- **The ways to evaluate a source agree**, in every session whose functions can be shown.  The
    three ways evaluate the source once each, in the same state, and differ in what they print and
    give back. -/
theorem alike (hs : s.Named) (fuel : Nat) (source : String) : s.Agree fuel source := by
  rw [Agree, executeWithin_value]
  by_cases h : (parse source).diagnostics = []
  · rw [runWithin_of_clean h, printWithin_of_clean h]
    cases ht : s.evaluateWithin fuel (parse source) with
    | none => exact .inl ⟨rfl, rfl, rfl⟩
    | some t =>
      -- Whatever the value is, it can be shown.
      obtain ⟨r, store, hend, rfl⟩ := evaluateWithin_eq_some_iff.1 ht
      have hshown : ∃ u, s.shown (s.evaluated (parse source) r store) = some u := by
        cases r with
        | none => exact ⟨_, rfl⟩
        | some v =>
          obtain ⟨text, htext⟩ := (named_of_program hs hend).2 v rfl
          exact ⟨_, congrArg (Option.map _) htext⟩
      obtain ⟨u, hu⟩ := hshown
      rw [Option.bind_some, hu]
      exact .inr ⟨_, u, executed u, rfl, rfl, rfl, alike_of_clean h hu⟩
  · rw [runWithin_of_faulty h, printWithin_of_faulty h]
    exact .inr ⟨_, _, _, rfl, rfl, rfl, alike_of_faulty s h _⟩

/-- A line that is typed in is executed, and all that is printed goes to the output. -/
theorem respondWithin_eq {line : String} (h : (Text.trim line).isEmpty = false) :
    Interactive.respondWithin fuel false s line =
      (s.printWithin fuel line).map fun u =>
        (u.session, u.shownLog.map .entry ++ (u.printed.map Interactive.toOutput).map .line) := by
  rw [Interactive.respondWithin, if_neg (by rw [h]; exact Bool.false_ne_true), executeWithin_value]
  cases s.printWithin fuel line <;> rfl

end Session

/-- What is known of a library that colours texts: without colours it leaves a text as it is, and
    with colours it may put something in front of it and behind it. -/
structure Paint.Lawful (paint : Paint) : Prop where
  /-- With colours off, a text is left as it is. -/
  off : ∀ text, paint false text = text
  /-- With colours on, something is put around a text, and always the same. -/
  on : ∃ before after : String, ∀ text, paint true text = before ++ text ++ after

namespace Session

/-- **Sources with faults and trees leave no trace, and the ways to evaluate a source agree.**  From
    every session, requests that end lead to one session, and only those that evaluate a source
    without faults have a part in it.  After any requests to a session whose functions lack no
    parameter, such as one in which nothing has run, running a source, printing it and executing it
    all end, with the same session, or none of them does, whatever the bound.  What is printed are
    values as they are shown and faults below a heading, but errors and the heading are coloured as
    the session colours texts: it puts something in front of them and behind them, which is nothing
    without colours.  To a line that is typed in all of this is printed to the output. -/
theorem requests_leave_no_trace {paint : Paint} (hpaint : paint.Lawful) (settings : Settings) :
    (∀ s rs s', Ends s rs s' ↔ s.Ends (rs.filter Request.counts) s') ∧
    (∀ s rs s' s'', Ends s rs s' → s.Ends rs s'' → s' = s'') ∧
    (∀ s rs s', Named s → s.Ends rs s' → s'.red = s.red ∧ ∀ fuel source, s'.Agree fuel source) ∧
    (ofSettings paint settings).Named ∧
    (∃ before after : String,
      (∀ text, (ofSettings paint settings).red text = before ++ text ++ after) ∧
        (settings.color = false → before = "" ∧ after = "")) ∧
    ∀ s fuel line, (Text.trim line).isEmpty = false →
      Interactive.respondWithin fuel false s line = (s.printWithin fuel line).map fun u =>
        (u.session, u.shownLog.map .entry ++ (u.printed.map Interactive.toOutput).map .line) := by
  refine ⟨fun _ _ _ => ends_filter, fun _ _ _ _ => Ends.unique, ?_, named_ofSettings paint settings,
    ?_, fun _ _ _ => respondWithin_eq⟩
  · intro s rs s' hs hends
    exact ⟨hends.red_eq, (hends.named hs |> alike)⟩
  · cases hcolor : settings.color with
    | false => exact ⟨"", "", by simp [ofSettings, hcolor, hpaint.off], fun _ => ⟨rfl, rfl⟩⟩
    | true =>
      obtain ⟨before, after, hon⟩ := hpaint.on
      exact ⟨before, after, by simp [ofSettings, hcolor, hon], by simp⟩

/-- Terminals are told to show a text in red by what stands in front of it and behind it. -/
theorem lawful_ansi : CommandLine.ansi.Lawful := ⟨fun _ => rfl, "\x1b[31m", "\x1b[0m", fun _ => rfl⟩

/-- Sources with and without faults, evaluated and not. -/
def mixedRequests : List Request :=
  [.tree "x", .run "(", .print "incognita x = 5", .execute true "incognita x = 6",
    .execute false "x", .print "incognita x = "]

/-- Two of the requests count, and a name that they bind keeps its value.  Afterwards the ways to
    evaluate a source that fails still agree. -/
theorem mixedRequests_leave_no_trace :
    let start := ofSettings CommandLine.ansi .default
    ∃ s', start.Ends mixedRequests s' ∧
      start.Ends [.print "incognita x = 5", .execute false "x"] s' ∧
      (s'.get? "x").bind Value.inspect = some "5" ∧ s'.Agree 9 "x / 0" := by
  intro start
  have hrun : (((Request.print "incognita x = 5").doneWithin 9 start).bind fun s =>
      ((Request.execute false "x").doneWithin 9 s).bind fun s =>
        (s.get? "x").bind Value.inspect) = some "5" := by
    decide +kernel
  obtain ⟨s, hprint, hrun⟩ := Option.bind_eq_some_iff.1 hrun
  obtain ⟨s', hexecute, hx⟩ := Option.bind_eq_some_iff.1 hrun
  have hcounts : mixedRequests.filter Request.counts =
      [.print "incognita x = 5", .execute false "x"] := by
    decide +kernel
  -- Only the two requests that count are run, and the others are put back by `hfilter`.
  have hends := Ends.cons 9 hprint (.cons 9 hexecute .nil)
  obtain ⟨hfilter, -, hagree, hnamed, -⟩ := requests_leave_no_trace lawful_ansi .default
  exact ⟨s', (hfilter _ _ _).2 (hcounts ▸ hends), hends, hx,
    (hagree _ _ _ hnamed hends).2 9 "x / 0"⟩

/-- On a terminal an error is not printed as it is shown, nor is the heading above faults printed as
    it stands, and to a line that is typed in faults are not printed to the output for errors. -/
theorem error_printed_in_red :
    let s := ofSettings CommandLine.ansi .default
    (∃ t u text, s.runWithin 9 "x" = some t ∧ t.result = .ok (some (.err (.unbound "x"))) ∧
      (Value.err (.unbound "x")).inspect = some text ∧ s.printWithin 9 "x" = some u ∧
      u.printed = [.out ("\x1b[31m" ++ text ++ "\x1b[0m\n")] ∧ u.printed ≠ [.out (text ++ "\n")]) ∧
    (∃ u, s.printWithin 9 "incognita =" = some u ∧
      u.printed.head? = some (.err "\x1b[31mErrores de análisis:\x1b[0m\n") ∧
      u.printed.head? ≠ some (.err "Errores de análisis:\n")) ∧
    ∃ s' written, Interactive.respondWithin 9 false s "incognita =" = some (s', written) ∧
      written = [.line (.out "\x1b[31mErrores de análisis:\x1b[0m\n"),
        .line (.out "\ttoken inesperado: se esperaba IDENT pero se obtuvo ASSIGN\n"),
        .line (.out "\tno se encontró ninguna función para analizar: =\n")] := by
  intro s
  have hx : parse "x" = ⟨⟨[.expr ⟨.ident, "x"⟩ (.ident (.ofToken ⟨.ident, "x"⟩))]⟩, []⟩ := by
    with_unfolding_all rfl
  have hfaults : (parse "incognita =").diagnostics =
      [.unexpected .ident .assign, .noRule "="] := by
    with_unfolding_all rfl
  have hfaulty : (parse "incognita =").diagnostics ≠ [] := by rw [hfaults]; simp
  -- The header alone is coloured, and the diagnostics under it are plain.
  have hlines : s.faultLines (parse "incognita =") =
      [.err "\x1b[31mErrores de análisis:\x1b[0m\n",
        .err "\ttoken inesperado: se esperaba IDENT pero se obtuvo ASSIGN\n",
        .err "\tno se encontró ninguna función para analizar: =\n"] := by
    rw [faultLines, hfaults]
    decide +kernel
  have hprint := @printWithin_of_faulty s 9 _ hfaulty
  rw [hlines] at hprint
  refine ⟨?_, ⟨_, hprint, rfl, by simp [rejected]⟩, ?_⟩
  · have hrun : ∃ t, s.runWithin 9 "x" = some t ∧ t.result = .ok (some (.err (.unbound "x"))) := by
      rw [runWithin, hx]
      exact ⟨_, rfl, rfl⟩
    have hprinted : ∃ u, s.printWithin 9 "x" = some u ∧
        u.printed = [.out "\x1b[31mError: identificador no encontrado: x\x1b[0m\n"] := by
      rw [printWithin, hx]
      exact ⟨_, rfl, by decide +kernel⟩
    obtain ⟨t, ht, hresult⟩ := hrun
    obtain ⟨u, hu, hlines⟩ := hprinted
    refine ⟨t, u, "Error: identificador no encontrado: x", ht, hresult, by decide +kernel, hu,
      ?_, ?_⟩
    · rw [hlines]
      decide +kernel
    · rw [hlines]
      decide +kernel
  · have hblank : (Text.trim "incognita =").isEmpty = false := by decide +kernel
    have hlevel : s.level.passes .debug = false := by decide +kernel
    have hlog : Log.shown s.level [parsedEntry (parse "incognita =")] = [] := by
      simp [Log.shown, parsedEntry, Log.Entry.level, hlevel]
    rw [respondWithin_eq hblank, hprint, Option.map_some, Turn.shownLog, rejected, hlog]
    exact ⟨_, _, rfl, rfl⟩

end Session

end Incognita
