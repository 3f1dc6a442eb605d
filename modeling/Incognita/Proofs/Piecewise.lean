import Incognita.Proofs.Concatenation
import Incognita.Proofs.Evaluations
import Incognita.Proofs.Matching
import Incognita.Proofs.Safety

namespace Incognita

/-!
# Session — a program in pieces

The sources of a session share their scopes, and nothing but the calls noted down is taken back
between two of them.  So running the pieces of a program one after another is running the program.

* `Matching.same` — stores that differ only in the calls that were noted down earlier;
* `Eval.Flows` — statements run one after another, and none gives a return or an error;
* `Eval.Flows.finishes_append` — then a program goes on with the statements behind them;
* `Session.Runs`, `Session.Flows` — the same for sources in a session;
* `Session.run_joined` — sources with line breaks between them run as they do one by one.
-/

/-! ### Stores that differ in the earlier calls -/

/-- Every scope and every closure belongs together with itself. -/
def Matching.same : Matching := ⟨Eq, Eq⟩

/-- Equality is one to one. -/
theorem Matching.same_oneToOne : Matching.same.OneToOne where
  scope := by
    rintro i _ i' _ rfl rfl
    exact Iff.rfl
  closure := by
    rintro a _ a' _ rfl rfl
    exact Iff.rfl

section

variable {v w : Value} {r r' : Result} {s t : Store} {earlier earlier' : List Call}

theorem Closure.matches_same (c : Closure) : c.Matches .same c :=
  ⟨rfl, rfl, rfl, List.forall₂_same.2 fun _ _ => rfl, rfl⟩

/-- Nothing else matches it. -/
theorem Closure.Matches.eq {c d : Closure} (h : c.Matches .same d) : c = d := by
  obtain ⟨htoken, hparams, hbody, hscopes, hid⟩ := h
  have hscopes' : c.scopes = d.scopes := List.forall₂_eq_eq_eq ▸ hscopes
  cases c
  cases d
  simp_all [Matching.same]

/-- A value matches itself. -/
theorem Value.matches_same (v : Value) : v.Matches .same v := by
  induction v with
  | int n => exact .int n
  | bool b => exact .bool b
  | str x => exact .str x
  | null => exact .null
  | fn c => exact .fn c.matches_same
  | ret v ih => exact .ret ih
  | err e => exact .err e
  | brk => exact .brk

/-- Nothing else matches it. -/
theorem Value.Matches.eq (h : v.Matches .same w) : v = w := by
  induction h with
  | fn h => rw [h.eq]
  | ret _ ih => rw [ih]
  | _ => rfl

/-- Results that match by equality are equal. -/
theorem Result.eq_of_rel (h : Option.Rel (Value.Matches .same) r r') : r = r' := by
  cases h with
  | some hv => rw [hv.eq]
  | none => rfl

theorem Context.matches_same (ctx : Context) : ctx.Matches .same ctx :=
  ⟨List.forall₂_same.2 fun _ _ => rfl, rfl, rfl⟩

namespace Store

/-- A store matches itself, with its own calls as the earlier ones. -/
theorem matches_same (s : Store) : s.Matches .same s.calls s.calls s where
  binding := by
    rintro i _ rfl x
    cases s.binding? i x with
    | none => exact .none
    | some v => exact .some v.matches_same
  bound := by
    rintro i _ rfl
    exact Iff.rfl
  nextScope _ := rfl
  nextClosure _ := rfl
  calls := ⟨[], [], rfl, rfl, .nil⟩

/-- Stores that match bind the same. -/
theorem Matches.binding?_eq (h : s.Matches .same earlier earlier' t) (i : ScopeId) (x : String) :
    s.binding? i x = t.binding? i x :=
  Result.eq_of_rel (h.binding rfl x)

/-- Stores that match were led to by the same calls, as far as they are not earlier ones. -/
theorem Matches.calls_eq (h : s.Matches .same earlier earlier' t) :
    ∃ new, s.calls = new ++ earlier ∧ t.calls = new ++ earlier' := by
  obtain ⟨new, new', hs, ht, hnew⟩ := h.calls
  have heq : new = new' := by
    clear hs ht
    induction hnew with
    | nil => rfl
    | @cons c d _ _ hcd _ ih =>
      have hc : c = d := by
        cases c
        cases d
        rw [Call.mk.injEq]
        exact ⟨hcd.callee.eq, hcd.depth⟩
      rw [hc, ih]
  exact ⟨new, hs, heq ▸ ht⟩

/-- From here on what was noted down in both stores is earlier, and may be forgotten in one. -/
theorem Matches.forget (h : s.Matches .same earlier earlier' t) :
    s.Matches .same s.calls [] { t with calls := [] } where
  binding := h.binding
  bound := h.bound
  nextScope := h.nextScope
  nextClosure := h.nextClosure
  calls := ⟨[], [], rfl, rfl, .nil⟩

end Store

end

namespace Eval

/-- Programs in stores that match go in lockstep. -/
theorem program_lockstep {m : Matching} (hm : m.OneToOne) (fuel : Nat) {ctx ctx' : Context}
    {ss : List Stmt} {last last' : Result} {s t : Store} {earlier earlier' : List Call}
    (hc : ctx.Matches m ctx') (hl : Option.Rel (Value.Matches m) last last')
    (hs : s.Matches m earlier earlier' t) :
    (program fuel ctx ss last s).Rel False (Ends m earlier earlier')
      (program fuel ctx' ss last' t) := by
  induction fuel generalizing ss last last' s t with
  | zero => simp only [program]; trivial
  | succ fuel ih =>
    cases ss with
    | nil => simp only [program]; exact ⟨hl, hs⟩
    | cons st ss =>
      simp only [program]
      refine ((lockstep earlier earlier' hm fuel).stmt st hc hs).bind ?_
      -- The results match, so both programs end with this statement, or both go on.
      rintro r s r' t ⟨hr, hs⟩
      cases hr with
      | none => exact ih .none hs
      | @some v v' hv =>
        have hrest : (program fuel ctx ss (some v) s).Rel False (Ends m earlier earlier')
            (program fuel ctx' ss (some v') t) := ih (.some hv) hs
        cases hv with
        | ret hv => exact Lockstep.done hv hs
        | err e => exact Lockstep.done (.err e) hs
        | brk => exact Lockstep.done (.err .strayBreak) hs
        | int | bool | str | null | fn => exact hrest

/-! ### Statements one after another -/

/-- The program ends with a result and a store, under some bound. -/
def Finishes (ctx : Context) (ss : List Stmt) (last : Result) (s : Store) (r : Result)
    (t : Store) : Prop :=
  ∃ fuel, program fuel ctx ss last s = .done r t

/-- The statements run one after another, up to a store, and none of them gives a return or an
    error. -/
inductive Flows (ctx : Context) : List Stmt → Store → Store → Prop
  /-- Nothing is run, and nothing has changed. -/
  | nil {s} : Flows ctx [] s s
  /-- A statement ends with neither a return nor an error, and the others flow from there. -/
  | cons {st ss s r t u} (hst : (Node.stmt st).Evaluates ctx s r t)
      (hret : ∀ v, r ≠ some (.ret v)) (herr : ∀ e, r ≠ some (.err e))
      (hss : Flows ctx ss t u) : Flows ctx (st :: ss) s u

section

variable {ctx : Context} {ss ss' : List Stmt} {st : Stmt} {last last' r r' : Result}
  {s t u S : Store}

/-- Without statements a program gives the result so far. -/
theorem finishes_nil : Finishes ctx [] last s r t ↔ r = last ∧ t = s := by
  constructor
  · rintro ⟨fuel, h⟩
    cases fuel with
    | zero => simp [program] at h
    | succ fuel =>
      rw [program, Outcome.done.injEq] at h
      exact ⟨h.1.symm, h.2.symm⟩
  · rintro ⟨rfl, rfl⟩
    exact ⟨1, rfl⟩

/-- A program goes on behind a statement that gives no signal. -/
theorem finishes_cons (hst : (Node.stmt st).Evaluates ctx s r t)
    (hr : Result.isSignal r = false) :
    Finishes ctx (st :: ss) last s r' u ↔ Finishes ctx ss r t r' u := by
  obtain ⟨fuel, hf⟩ := hst
  have hgo : ∀ n, stmt n ctx st s = .done r t →
      program (n + 1) ctx (st :: ss) last s = program n ctx ss r t := by
    intro n hn
    rw [program, hn]
    cases r with
    | none => rfl
    | some v =>
      cases v with
      | ret | err | brk => exact absurd hr (by simp [Result.isSignal, Value.isSignal])
      | _ => rfl
  constructor
  · rintro ⟨n, hn⟩
    -- One bound for the first statement and for the others: the sum of the two is enough for both.
    have hmore := program_mono (Nat.le_add_right n (fuel + 1)) hn
    have hle : fuel ≤ n + fuel := Nat.le_add_left fuel n
    have hstmt := @Job.run_mono fuel (n + fuel) ctx s (.stmt st) r t hle hf
    rw [← Nat.add_assoc, hgo _ hstmt] at hmore
    exact ⟨_, hmore⟩
  · rintro ⟨n, hn⟩
    have hle : fuel ≤ n + fuel := Nat.le_add_left fuel n
    have hstmt := @Job.run_mono fuel (n + fuel) ctx s (.stmt st) r t hle hf
    refine ⟨n + fuel + 1, ?_⟩
    rw [hgo _ hstmt]
    exact program_mono (Nat.le_add_right n fuel) hn

/-- What was run before a statement does not show in what comes after it. -/
theorem finishes_last (hne : ss ≠ []) :
    Finishes ctx ss last s r t ↔ Finishes ctx ss last' s r t := by
  cases ss with
  | nil => exact absurd rfl hne
  | cons st ss =>
    refine exists_congr fun fuel => ?_
    cases fuel <;> rfl

/-- A sound statement of a program gives no break. -/
theorem safe_of_evaluates (hst : (Node.stmt st).Evaluates ctx s r t) (h : (Job.stmt st).Sound false)
    (hs : s.Safe) : r ≠ some .brk ∧ t.Safe := by
  obtain ⟨fuel, hf⟩ := hst
  have hsafe : (stmt fuel ctx st s).Sat False (Job.Good false) :=
    Job.run_safe fuel (.stmt st) ctx s false h hs
  have heval : stmt fuel ctx st s = .done r t := hf
  rw [heval] at hsafe
  refine ⟨?_, hsafe.2⟩
  rintro rfl
  exact absurd (hsafe.1 .brk rfl) (by simp [Value.Safe])

namespace Flows

/-- Statements flow through if both of their parts do, one after the other. -/
theorem append (h : Flows ctx ss s t) (h' : Flows ctx ss' t u) : Flows ctx (ss ++ ss') s u := by
  induction h with
  | nil => exact h'
  | cons hst hret herr _ ih => exact .cons hst hret herr (ih h')

/-- What flows through leaves a store in which no function breaks out. -/
theorem safe (h : Flows ctx ss s t) (hsound : ∀ st ∈ ss, (Job.stmt st).Sound false)
    (hs : s.Safe) : t.Safe := by
  induction h with
  | nil => exact hs
  | cons hst _ _ _ ih =>
    obtain ⟨hfirst, hrest⟩ := List.forall_mem_cons.1 hsound
    exact ih hrest (safe_of_evaluates hst hfirst hs).2

/-- **A program goes on behind statements that flow.**  A statement that flows gives neither a
    return nor an error, and a break cannot be its result in a sound program. -/
theorem finishes_append (h : Flows ctx ss s t) (hsound : ∀ st ∈ ss, (Job.stmt st).Sound false)
    (hs : s.Safe) (last : Result) : ∃ last', ∀ ss' r u,
      Finishes ctx (ss ++ ss') last s r u ↔ Finishes ctx ss' last' t r u := by
  induction h generalizing last with
  | nil => exact ⟨last, fun _ _ _ => Iff.rfl⟩
  | @cons st ss s r t u hst hret herr _ ih =>
    obtain ⟨hfirst, hrest⟩ := List.forall_mem_cons.1 hsound
    obtain ⟨hbrk, ht⟩ := safe_of_evaluates hst hfirst hs
    -- No return and no error by assumption, and no break because the statement is sound.
    have hr : Result.isSignal r = false := by
      cases r with
      | none => rfl
      | some v =>
        cases v with
        | ret v => exact absurd rfl (hret v)
        | err e => exact absurd rfl (herr e)
        | brk => exact absurd rfl hbrk
        | _ => rfl
    obtain ⟨last', hlast⟩ := ih hrest ht r
    refine ⟨last', fun ss' r' u' => ?_⟩
    rw [← hlast, List.cons_append]
    exact finishes_cons hst hr

/-- Statements flow alike whatever was noted down earlier. -/
theorem matched {earlier earlier' : List Call} (h : Flows ctx ss s t)
    (hS : S.Matches .same earlier earlier' s) :
    ∃ T, Flows ctx ss S T ∧ T.Matches .same earlier earlier' t := by
  induction h generalizing S with
  | nil => exact ⟨S, .nil, hS⟩
  | @cons st ss s r t u hst hret herr _ ih =>
    obtain ⟨fuel, hf⟩ := hst
    have heval : stmt fuel ctx st s = .done r t := hf
    have hrel := (lockstep earlier earlier' Matching.same_oneToOne fuel).stmt st
      ctx.matches_same hS
    rw [heval] at hrel
    obtain ⟨r', T, hevalS, hr, hT⟩ := hrel.exists_left
    obtain rfl := Result.eq_of_rel hr
    obtain ⟨U, hU, hUu⟩ := ih hT
    exact ⟨U, .cons ⟨fuel, hevalS⟩ hret herr hU, hUu⟩

end Flows

/-- Programs end alike whatever was noted down earlier. -/
theorem finishes_matched {earlier earlier' : List Call} (hS : S.Matches .same earlier earlier' s) :
    (∀ r T, Finishes ctx ss none S r T →
      ∃ t, Finishes ctx ss none s r t ∧ T.Matches .same earlier earlier' t) ∧
    ∀ r t, Finishes ctx ss none s r t → ∃ T, Finishes ctx ss none S r T := by
  have hrel := fun fuel => @program_lockstep .same Matching.same_oneToOne fuel ctx ctx ss none none
    S s earlier earlier' ctx.matches_same .none hS
  constructor
  · rintro r T ⟨fuel, hT⟩
    have hright := hrel fuel
    rw [hT] at hright
    obtain ⟨r', t, ht, hr, hmatch⟩ := hright.exists_right
    obtain rfl := Result.eq_of_rel hr
    exact ⟨t, ⟨fuel, ht⟩, hmatch⟩
  · rintro r t ⟨fuel, ht⟩
    have hleft := hrel fuel
    rw [ht] at hleft
    obtain ⟨r', T, hT, hr, -⟩ := hleft.exists_left
    obtain rfl := Result.eq_of_rel hr
    exact ⟨T, fuel, hT⟩

end

end Eval

/-! ### Sources one after another -/

/-- The calls among the entries of a log. -/
def Log.calls (es : List Log.Entry) : List Call :=
  es.filterMap fun
    | .called c => some c
    | _ => none

/-- The calls of two logs one behind the other. -/
theorem Log.calls_append (es es' : List Log.Entry) :
    Log.calls (es ++ es') = Log.calls es ++ Log.calls es' :=
  List.filterMap_append

/-- Every statement of a source without faults is sound. -/
theorem sound_of_mem {source : String} (hp : (parse source).diagnostics = []) :
    ∀ st ∈ (parse source).program.stmts, (Eval.Job.stmt st).Sound false := by
  obtain ⟨hc, hb⟩ := sound_of_parse hp
  revert hc hb
  rw [Program.Complete, Program.strayBreaks]
  induction (parse source).program.stmts with
  | nil => simp
  | cons st ss ih =>
    intro hc hb
    obtain ⟨hbst, hbss⟩ := Nat.add_eq_zero_iff.1 hb
    exact List.forall_mem_cons.2 ⟨⟨hc.1, hbst⟩, ih hc.2 hbss⟩

namespace Session

variable {s s' : Session} {source : String}

/-- Running the source ends with a turn, under some bound. -/
def Runs (s : Session) (source : String) (t : Turn (Except String Result)) : Prop :=
  ∃ fuel, s.runWithin fuel source = some t

/-- The turn of a source whose program ends with a result and a store. -/
def turn (s : Session) (p : Parsed) (r : Result) (store : Store) :
    Turn (Except String Result) where
  result := .ok r
  session := { s with store := { store with calls := [] } }
  log := (parsedEntry p :: store.calls.reverse.map Log.Entry.called) ++
    [.evaluated (r.map Value.kind)]

/-- The calls in the log of a turn are those of the evaluation, in order. -/
theorem calls_turn (s : Session) (p : Parsed) (r : Result) (store : Store) :
    Log.calls (s.turn p r store).log = store.calls.reverse := by
  simp [turn, Log.calls, parsedEntry, List.filterMap_append]

/-- A source without faults runs if its statements finish, with the turn that `Session.turn` makes
    of it. -/
theorem runs_iff (hp : (parse source).diagnostics = []) {t : Turn (Except String Result)} :
    s.Runs source t ↔ ∃ r store, Eval.Finishes s.context (parse source).program.stmts
      none s.store r store ∧ t = s.turn (parse source) r store := by
  have hnone : (parse source).error? = none := by simp [Parsed.error?, hp]
  constructor
  · rintro ⟨fuel, h⟩
    simp only [runWithin, hnone, Option.bind_eq_bind, Option.bind_eq_some_iff,
      Option.some.injEq] at h
    obtain ⟨u, hu, rfl⟩ := h
    obtain ⟨r, store, hd, rfl⟩ := evaluateWithin_eq_some_iff.1 hu
    exact ⟨r, store, ⟨fuel, hd⟩, rfl⟩
  · rintro ⟨r, store, ⟨fuel, hd⟩, rfl⟩
    have hu := evaluateWithin_eq_some_iff.2 ⟨r, store, hd, rfl⟩
    exact ⟨fuel, by simp [runWithin, hnone, hu, evaluated, turn]⟩

/-- The sources run one after another, which leaves so much in the log and leads to a session.
    None of their statements gives a return or an error. -/
inductive Flows : Session → List String → List Log.Entry → Session → Prop
  | nil {s : Session} : Flows s [] [] s
  | cons {s : Session} {source : String} {t store sources log u} (ht : s.Runs source t)
      (hstmts : Eval.Flows s.context (parse source).program.stmts s.store store)
      (h : Flows t.session sources log u) : Flows s (source :: sources) (t.log ++ log) u

/-- **The statements of all sources flow one after another as well**, and lead to a store that
    only differs in the calls that it has noted down. -/
theorem Flows.statements {sources : List String} {log : List Log.Entry}
    (h : s.Flows sources log s') (hp : ∀ source ∈ sources, (parse source).diagnostics = [])
    (hs : s.store.Safe) {S : Store} (hS : S.Matches .same S.calls [] s.store) :
    s'.context = s.context ∧ ∃ T, Eval.Flows s.context
        (sources.flatMap fun source => (parse source).program.stmts) S T ∧
      T.Matches .same T.calls [] s'.store ∧ T.calls = (Log.calls log).reverse ++ S.calls := by
  induction h generalizing S with
  | nil => exact ⟨rfl, S, .nil, hS, rfl⟩
  | @cons s source t store sources log u ht hstmts _ ih =>
    obtain ⟨hsource, hsources⟩ := List.forall_mem_cons.1 hp
    have hsound := sound_of_mem hsource
    -- The turn ends in the store that the statements flow to.
    obtain ⟨r, store', hfinishes, rfl⟩ := (runs_iff hsource).1 ht
    obtain ⟨last, happend⟩ := hstmts.finishes_append hsound hs none
    have hstore : store' = store := by
      have hend := (happend [] r store').1 (by rwa [List.append_nil])
      exact (Eval.finishes_nil.1 hend).2
    subst hstore
    obtain ⟨T, hT, hmatch⟩ := hstmts.matched hS
    obtain ⟨new, hnew, hnew'⟩ := hmatch.calls_eq
    obtain ⟨hcontext, U, hU, hmatch', hcalls⟩ := ih hsources (hstmts.safe hsound hs) hmatch.forget
    refine ⟨hcontext, U, ?_, hmatch', ?_⟩
    · rw [List.flatMap_cons]
      exact hT.append hU
    · rw [hcalls, hnew, Log.calls_append, calls_turn, hnew']
      simp

/-- The joined sources finish as the last one does, from a store that only differs in the calls
    that it has noted down. -/
theorem Flows.finishes_joined {paint : Paint} {settings : Settings} {first : List String}
    {last : String} {log : List Log.Entry}
    (hfirst : ∀ source ∈ first,
      (parse source).diagnostics = [] ∧ Terminated (tokenize source.toList))
    (hlast : (parse last).diagnostics = []) (hne : (parse last).program.stmts ≠ [])
    (h : (ofSettings paint settings).Flows first log s) :
    s.context = ⟨.root, 0, settings.limit⟩ ∧ ∃ T,
      (∀ r u, Eval.Finishes ⟨.root, 0, settings.limit⟩
          (parse ("\n".intercalate (first ++ [last]))).program.stmts none .initial r u ↔
        Eval.Finishes ⟨.root, 0, settings.limit⟩ (parse last).program.stmts none T r u) ∧
      T.Matches .same T.calls [] s.store ∧ T.calls = (Log.calls log).reverse := by
  have hclean : ∀ source ∈ first, (parse source).diagnostics = [] := fun x hx => (hfirst x hx).1
  have hsafe : (ofSettings paint settings).store.Safe := Reached.safe .start
  obtain ⟨hcontext, T, hflows, hmatch, hcalls⟩ :=
    h.statements hclean hsafe (ofSettings paint settings).store.matches_same
  have hsound : ∀ st ∈ first.flatMap (fun source => (parse source).program.stmts),
      (Eval.Job.stmt st).Sound false := by
    intro st hst
    obtain ⟨source, hsource, hst⟩ := List.mem_flatMap.1 hst
    exact sound_of_mem (hclean source hsource) st hst
  obtain ⟨last', happend⟩ := hflows.finishes_append hsound hsafe none
  refine ⟨hcontext, T, fun r u => ?_, hmatch, ?_⟩
  · rw [parse_joined hfirst hlast]
    exact (happend _ r u).trans (Eval.finishes_last hne)
  · rw [hcalls]
    exact List.append_nil _

/-- **Running a program piece by piece is running it at once.**  Take sources that are read without
    faults, all but the last one with a semicolon at the end, and the last one with some
    statement in it.  If all but the last one run one after another in a new session, and none of
    their statements gives a return or an error, then the sources with line breaks between them,
    run as one in a new session, end exactly if the last one then ends; and they end with the
    same result, the same bindings in all scopes and the same calls in the log. -/
theorem run_joined {paint : Paint} {settings : Settings} {first : List String} {last : String}
    {s : Session} {log : List Log.Entry}
    (hfirst : ∀ source ∈ first,
      (parse source).diagnostics = [] ∧ Terminated (tokenize source.toList))
    (hlast : (parse last).diagnostics = []) (hne : (parse last).program.stmts ≠ [])
    (h : (ofSettings paint settings).Flows first log s) :
    ((∃ t, (ofSettings paint settings).Runs ("\n".intercalate (first ++ [last])) t) ↔
      ∃ u, s.Runs last u) ∧
    ∀ t u, (ofSettings paint settings).Runs ("\n".intercalate (first ++ [last])) t → s.Runs last u →
      t.result = u.result ∧
      (∀ i x, t.session.store.binding? i x = u.session.store.binding? i x) ∧
      Log.calls t.log = Log.calls log ++ Log.calls u.log := by
  obtain ⟨hcontext, T, hrest, hmatch, hcalls⟩ := h.finishes_joined hfirst hlast hne
  have hstart : (ofSettings paint settings).context = ⟨.root, 0, settings.limit⟩ := rfl
  have hjoined : (parse ("\n".intercalate (first ++ [last]))).diagnostics = [] := by
    rw [parse_joined hfirst hlast]
  obtain ⟨hright, hleft⟩ := @Eval.finishes_matched ⟨.root, 0, settings.limit⟩
    (parse last).program.stmts _ _ _ _ hmatch
  simp only [runs_iff hjoined, runs_iff hlast, hcontext, hstart]
  constructor
  · constructor
    · rintro ⟨t, r, store, hend, -⟩
      obtain ⟨store', hend', -⟩ := hright r store ((hrest r store).1 hend)
      exact ⟨_, r, store', hend', rfl⟩
    · rintro ⟨u, r, store, hend, -⟩
      obtain ⟨store', hend'⟩ := hleft r store hend
      exact ⟨_, r, store', (hrest r store').2 hend', rfl⟩
  · rintro t u ⟨r, store, hend, rfl⟩ ⟨r', store', ⟨fuel', hend'⟩, rfl⟩
    -- The last piece ends from both stores, so it ends alike.
    obtain ⟨store'', ⟨fuel, hend''⟩, hsame⟩ := hright r store ((hrest r store).1 hend)
    obtain ⟨rfl, rfl⟩ := Eval.program_unique hend'' hend'
    obtain ⟨new, hnew, hnew'⟩ := hsame.calls_eq
    refine ⟨rfl, hsame.binding?_eq, ?_⟩
    rw [calls_turn, calls_turn, hnew, hnew', hcalls]
    simp

/-! ### A function that is handed to itself -/

/-- A source that binds a function which gives back its argument. -/
def bindsF : String := "incognita f = operacion(g) \x7b g \x7d;"

/-- The tokens of `bindsF`. -/
theorem tokenize_bindsF : tokenize bindsF.toList =
    [⟨.kwLet, "incognita"⟩, ⟨.ident, "f"⟩, ⟨.assign, "="⟩, ⟨.kwFunction, "operacion"⟩,
      ⟨.lparen, "("⟩, ⟨.ident, "g"⟩, ⟨.rparen, ")"⟩, ⟨.lbrace, "\x7b"⟩, ⟨.ident, "g"⟩,
      ⟨.rbrace, "\x7d"⟩, ⟨.semicolon, ";"⟩] := by
  decide +kernel

/-- The statement that they are read as, put together by the rules of reading. -/
theorem parse_bindsF : parse bindsF =
    ⟨⟨[.bind ⟨.kwLet, "incognita"⟩ (some (.ofToken ⟨.ident, "f"⟩))
      (.fn ⟨.kwFunction, "operacion"⟩ [some (.ofToken ⟨.ident, "g"⟩)] (.mk ⟨.lbrace, "\x7b"⟩
        [.expr ⟨.ident, "g"⟩ (.ident (.ofToken ⟨.ident, "g"⟩))]))]⟩, []⟩ := by
  rw [parse, tokenize_bindsF]
  have hg : Parser.Reads
      (.expr 0 Power.lowest [⟨.ident, "g"⟩, ⟨.rbrace, "\x7d"⟩, ⟨.semicolon, ";"⟩])
      (.ident (.ofToken ⟨.ident, "g"⟩)) [⟨.rbrace, "\x7d"⟩, ⟨.semicolon, ";"⟩] 0 :=
    .expr rfl (.leaf rfl) (.stop (by simp [Parser.Stops, Power.ofKind]))
  have hbody : Parser.Reads (.body 0 [⟨.ident, "g"⟩, ⟨.rbrace, "\x7d"⟩, ⟨.semicolon, ";"⟩])
      [.expr ⟨.ident, "g"⟩ (.ident (.ofToken ⟨.ident, "g"⟩))] [⟨.semicolon, ";"⟩] 0 :=
    .next (.exprStmt hg) (.close rfl)
  have hparams : Parser.params [⟨.ident, "g"⟩, ⟨.rparen, ")"⟩, ⟨.lbrace, "\x7b"⟩, ⟨.ident, "g"⟩,
      ⟨.rbrace, "\x7d"⟩, ⟨.semicolon, ";"⟩] =
      ⟨some [.ofToken ⟨.ident, "g"⟩], [⟨.lbrace, "\x7b"⟩, ⟨.ident, "g"⟩, ⟨.rbrace, "\x7d"⟩,
        ⟨.semicolon, ";"⟩], []⟩ := rfl
  exact parseTokens_eq_of_readsAll (.cons (.bind rfl rfl rfl (.expr rfl
    (.fn rfl rfl hparams (.block rfl hbody)) (.stop (by simp [Parser.Stops, Power.ofKind])))) .nil)

/-- The call of the function with itself. -/
theorem parse_callsF : parse "f(f)" = ⟨⟨[.expr ⟨.ident, "f"⟩ (.call ⟨.lparen, "("⟩
    (.ident (.ofToken ⟨.ident, "f"⟩)) [.ident (.ofToken ⟨.ident, "f"⟩)])]⟩, []⟩ := by
  have htokens : tokenize "f(f)".toList =
      [⟨.ident, "f"⟩, ⟨.lparen, "("⟩, ⟨.ident, "f"⟩, ⟨.rparen, ")"⟩] := by
    decide +kernel
  rw [parse, htokens]
  have hargs : Parser.Reads (.args 0 [⟨.ident, "f"⟩, ⟨.rparen, ")"⟩])
      (some [.ident (.ofToken ⟨.ident, "f"⟩)]) [] 0 :=
    .someArgs (.expr rfl (.leaf rfl) (.stop (by simp [Parser.Stops, Power.ofKind]))) (.lastArg rfl)
  exact parseTokens_eq_of_readsAll (.cons (.exprStmt (.expr rfl (.leaf rfl)
    (.call (by decide) rfl hargs (.stop (by simp [Parser.Stops]))))) .nil)

/-- The first piece flows, and behind it the second one ends with one call. -/
theorem finishes_callsF : ∃ store r store',
    Eval.Finishes ⟨.root, 0, Settings.default.limit⟩ (parse bindsF).program.stmts none .initial
      none store ∧
    Eval.Flows ⟨.root, 0, Settings.default.limit⟩ (parse bindsF).program.stmts .initial store ∧
    store.calls = [] ∧
    Eval.Finishes ⟨.root, 0, Settings.default.limit⟩ (parse "f(f)").program.stmts none
      { store with calls := [] } r store' ∧
    store'.calls.length = 1 := by
  rw [parse_bindsF, parse_callsF]
  exact ⟨_, _, _, ⟨9, rfl⟩, .cons ⟨9, rfl⟩ nofun nofun .nil, rfl, ⟨9, rfl⟩, rfl⟩

/-- The function and its call run as one source as they do one after the other. -/
theorem run_joined_bindsF : ∃ log s t u,
    (ofSettings CommandLine.ansi .default).Flows [bindsF] log s ∧
    (ofSettings CommandLine.ansi .default).Runs ("\n".intercalate [bindsF, "f(f)"]) t ∧
    s.Runs "f(f)" u ∧ t.result = u.result ∧ (Log.calls t.log).length = 1 := by
  have hclean : (parse bindsF).diagnostics = [] := by rw [parse_bindsF]
  have hclean' : (parse "f(f)").diagnostics = [] := by rw [parse_callsF]
  have hend : Terminated (tokenize bindsF.toList) := by
    rw [tokenize_bindsF]
    exact ⟨⟨.semicolon, ";"⟩, rfl, rfl⟩
  obtain ⟨store, r, store', hbinds, hstmts, hcalls, hcall, hlength⟩ := finishes_callsF
  let turn := (ofSettings CommandLine.ansi .default).turn (parse bindsF) none store
  have hfirst : (ofSettings CommandLine.ansi .default).Runs bindsF turn :=
    (runs_iff hclean).2 ⟨none, store, hbinds, rfl⟩
  have hflows := Flows.cons hfirst hstmts .nil
  have hlast : turn.session.Runs "f(f)" (turn.session.turn (parse "f(f)") r store') :=
    (runs_iff hclean').2 ⟨r, store', hcall, rfl⟩
  -- The two sources one by one, and with a line break between them.
  have hjoined := run_joined (fun x hx => List.mem_singleton.1 hx ▸ ⟨hclean, hend⟩) hclean'
    (by rw [parse_callsF]; simp) hflows
  obtain ⟨t, ht⟩ := hjoined.1.2 ⟨_, hlast⟩
  obtain ⟨hresult, -, hlog⟩ := hjoined.2 t _ ht hlast
  refine ⟨_, _, t, _, hflows, ht, hlast, hresult, ?_⟩
  have hnone : Log.calls turn.log = [] := by rw [calls_turn, hcalls, List.reverse_nil]
  rw [hlog, List.append_nil, hnone, calls_turn, List.nil_append, List.length_reverse, hlength]

end Session

end Incognita
