import Mathlib.Data.List.Chain
import Incognita.Proofs.Piecewise
import Incognita.Proofs.Plans
import Incognita.Proofs.Requests
import Incognita.Proofs.Sequencing

namespace Incognita

/-!
# Session — how deeply calls are nested

A call is noted down with its depth.  To say what that depth is, a `Tally` watches a run from
outside: it puts a function on a stack when a call of it is let through, takes it off when the call
ends, and notes the call down with the height of the stack.  The depth that is handed from one
evaluation to the next is at every moment the height of that stack, and what is noted down during a
run is what the tally has noted down.

* `Eval.Visit.callee?` — the function of a call that is let through;
* `Eval.Tally`, `Eval.Tally.note` — the calls that are active and those noted down so far;
* `Eval.Tally.Tracks` — the tally agrees with every event at the moment when it happens;
* `Eval.Visit.plan_steady`, `Eval.Visit.follows` — it does, through every plan and every evaluation;
* `Eval.Climbs` — depths that start at one, stay within the limit and go up one by one;
* `Eval.Tally.Sound`, `Eval.Tally.Tracks.sound` — those in a tally do;
* `Session.depth_tracked` — all of this for any request in any session.
-/

namespace Eval

/-! ### Calls that are active -/

/-- The function that a visit goes on to run, if it is a call that is not refused and of a function
    that lacks no parameter. -/
def Visit.callee? (v : Visit) : Option Closure :=
  match v.job with
  | .call (.fn c) vs =>
    if c.params.length = vs.length ∧ v.ctx.depth < v.ctx.limit ∧
      (Ident.present? c.params).isSome = true then some c else none
  | _ => none

/-- A call that is let through has room under the limit, as `Visit.callee?` asks for. -/
theorem Visit.callee?_eq_some {v : Visit} {c : Closure} (h : v.callee? = some c) :
    v.ctx.depth < v.ctx.limit := by
  rw [callee?] at h
  split at h
  · split at h
    · next hall => exact hall.2.1
    · exact absurd h (by simp)
  · exact absurd h (by simp)

/-- The functions whose calls are active, the innermost one first, the calls noted down so far, the
    latest one first, and how many calls may be active at once. -/
structure Tally where
  /-- How many calls may be active at once. -/
  limit : Nat
  /-- The functions whose calls are under way, the innermost first. -/
  active : List Closure := []
  /-- The calls that have been noted down, the last one first. -/
  log : List Call := []

namespace Tally

/-- No call is active, and none is noted down. -/
def start (limit : Nat) : Tally := { limit }

/-- A call of a function becomes active.  It is noted down with one more than the number of calls
    that are active so far. -/
def enter (y : Tally) (c : Closure) : Tally :=
  { y with active := c :: y.active, log := ⟨c, y.active.length + 1⟩ :: y.log }

/-- The innermost call is no longer active. -/
def leave (y : Tally) : Tally := { y with active := y.active.tail }

/-- The tally after an event.  Only calls that are let through make a difference. -/
def note (y : Tally) : Event → Tally
  | .began v => v.callee?.elim y y.enter
  | .ended v _ _ => v.callee?.elim y fun _ => y.leave

/-- The tally after some events. -/
def after (y : Tally) (evs : List Event) : Tally := evs.foldl note y

/-- The tally of a place in a run: as many calls are active as the context says, and those in the
    store are noted down. -/
structure Fits (y : Tally) (ctx : Context) (s : Store) : Prop where
  limit : ctx.limit = y.limit
  depth : ctx.depth = y.active.length
  log : s.calls = y.log

/-- The same calls are active when the store has become `s`. -/
def withLog (y : Tally) (s : Store) : Tally := { y with log := s.calls }

/-- The calls that are active and the limit are the same wherever the log has got to. -/
theorem Fits.withLog {y : Tally} {ctx : Context} {s : Store} (h : y.Fits ctx s) (t : Store) :
    (y.withLog t).Fits ctx t :=
  ⟨h.limit, h.depth, rfl⟩

end Tally

/-- The event is as the tally says at that moment.  A call that ends is the innermost active one. -/
def Event.Agrees (y : Tally) : Event → Prop
  | began v => y.Fits v.ctx v.store
  | ended v _ s => s.calls = y.log ∧ ∀ c ∈ v.callee?, y.active.head? = some c

/-- The tally agrees with every event at the moment when it happens. -/
def Tally.Tracks (y : Tally) : List Event → Prop
  | [] => True
  | ev :: evs => ev.Agrees y ∧ (y.note ev).Tracks evs

namespace Tally

variable {y : Tally} {evs evs' : List Event}

/-- The tally after two runs of events, one behind the other. -/
theorem after_append : y.after (evs ++ evs') = (y.after evs).after evs' := List.foldl_append

/-- A tally tracks two runs of events if it tracks the first one, and tracks the second one from
    where the first one has left it. -/
theorem tracks_append : y.Tracks (evs ++ evs') ↔ y.Tracks evs ∧ (y.after evs).Tracks evs' := by
  induction evs generalizing y with
  | nil => simp [Tracks, after]
  | cons ev evs ih =>
    rw [List.cons_append, Tracks, Tracks, ih, and_assoc]
    rfl

end Tally

/-! ### Plans -/

/-- The plan makes its evaluations with the calls of the tally active, each of them from the log
    that the one before it has left, and stops with that log. -/
def Plan.Steady {α : Type} : Tally → Plan α → Prop
  | y, stop o => o.Sat True fun _ s => s.calls = y.log
  | y, ask v k => y.Fits v.ctx v.store ∧ ∀ r s, (k r s).Steady (y.withLog s)

namespace Plan.Steady

variable {α : Type} {y : Tally} {ctx : Context} {s : Store}

/-- A plan that depends on a condition is steady if both of its alternatives are. -/
theorem ite {c : Prop} [Decidable c] {p q : Plan α} (hp : p.Steady y) (hq : q.Steady y) :
    (if c then p else q).Steady y := by
  split
  · exact hp
  · exact hq

/-- A plan that stops with a value leaves the log as it is. -/
theorem value (h : y.Fits ctx s) (v : Value) : (value v s).Steady y := h.log

/-- A plan of one evaluation, which is made where the plan is. -/
theorem last {v : Visit} (h : y.Fits v.ctx v.store) : (last v).Steady y :=
  ⟨h, fun _ _ => rfl⟩

/-- Whatever an operand does to the log, the plan goes on from there. -/
theorem operand {e : Expr} {k : Value → Store → Plan Result} (h : y.Fits ctx s)
    (hk : ∀ v t, (y.withLog t).Fits ctx t → (k v t).Steady (y.withLog t)) :
    (operand ctx e s k).Steady y := by
  refine ⟨h, fun r t => ite ?_ ?_⟩
  · exact value (h.withLog t) _
  · exact hk _ t (h.withLog t)

end Plan.Steady

open Plan (Steady)

section

variable {y : Tally} {ctx : Context} {s : Store}

/-- The plans of expressions make no call themselves, so the tally stays the same but for the log.
    -/
theorem exprPlan_steady (h : y.Fits ctx s) (e : Expr) : (exprPlan ctx s e).Steady y := by
  cases e with
  | missing | ident | bool | str => exact Steady.value h _
  | int t v => cases v <;> exact Steady.value h _
  | fn t xs b => exact h.log
  | unary t op e =>
    rw [exprPlan]
    exact Steady.operand h fun v t h => Steady.value h _
  | binary t l op r =>
    rw [exprPlan]
    refine Steady.operand h fun v t h => ?_
    have hlogical : (Plan.last ⟨.logical r, ctx, t⟩).Steady (y.withLog t) := Steady.last h
    refine .ite (.ite hlogical (.value h _)) (.ite (.ite (.value h _) hlogical) ?_)
    exact Steady.operand h fun w t h => Steady.value h _
  | choice t c a b =>
    rw [exprPlan]
    refine Steady.operand h fun v t h => ?_
    have hblock : ∀ b, (Plan.last ⟨.block b, ctx, t⟩).Steady (y.withLog t) := fun b => Steady.last h
    exact .ite (hblock a) (.ite (.value h _) (hblock b))
  | loop t c b => exact Steady.last (v := ⟨.loop c b, ctx, s⟩) h
  | call t f as =>
    rw [exprPlan]
    refine Steady.operand h fun v t h => ⟨h, fun vs u => ?_⟩
    cases vs with
    | ok vs => exact Steady.last (v := ⟨.call v vs, ctx, u⟩) (h.withLog u)
    | error signal => exact Steady.value (h.withLog u) signal

/-- Arguments are evaluated one after another, each from the log that the one before it has left. -/
theorem argsPlan_steady (h : y.Fits ctx s) (es : List Expr) : (argsPlan ctx s es).Steady y := by
  cases es with
  | nil => exact h.log
  | cons e es =>
    refine ⟨h, fun r t => .ite rfl ⟨h.withLog t, fun vs u => ?_⟩⟩
    exact rfl

/-- A call that is let through runs its body with one more call active, which the log has got. -/
theorem callPlan_steady (h : y.Fits ctx s) (f : Value) (vs : List Value) :
    (callPlan ctx s vs f).Steady (y.note (.began ⟨.call f vs, ctx, s⟩)) := by
  cases f with
  | fn c =>
    rw [callPlan, Tally.note]
    -- The plan looks at the parameters, at the depth and at the names, in this order, and so does
    -- `callee?`.
    by_cases hparams : c.params.length = vs.length
    · by_cases hdepth : ctx.depth < ctx.limit
      · rw [if_neg (not_not_intro hparams), if_neg (Nat.not_le.2 hdepth)]
        cases hnames : Ident.present? c.params with
        | none => trivial
        | some names =>
          have hcallee : (⟨.call (.fn c) vs, ctx, s⟩ : Visit).callee? = some c :=
            if_pos ⟨hparams, hdepth, by rw [hnames]; rfl⟩
          rw [hcallee]
          refine ⟨⟨h.limit, congrArg (· + 1) h.depth, ?_⟩, fun r t => rfl⟩
          -- The store notes the call down with the depth of the context, the tally with the height
          -- of the stack.
          show (⟨c, ctx.depth + 1⟩ : Call) :: s.calls = ⟨c, y.active.length + 1⟩ :: y.log
          rw [h.depth, h.log]
      · have hcallee : (⟨.call (.fn c) vs, ctx, s⟩ : Visit).callee? = none :=
          if_neg fun hall => hdepth hall.2.1
        rw [hcallee, if_neg (not_not_intro hparams), if_pos (Nat.le_of_not_lt hdepth)]
        exact Steady.value h _
    · have hcallee : (⟨.call (.fn c) vs, ctx, s⟩ : Visit).callee? = none :=
        if_neg fun hall => hparams hall.1
      rw [hcallee, if_pos hparams]
      exact Steady.value h _
  | _ => exact Steady.value h _

/-- A loop evaluates its condition, its body and then itself, all with the same calls active. -/
theorem loopPlan_steady (h : y.Fits ctx s) (c : Expr) (b : Block) :
    (loopPlan ctx s c b).Steady y := by
  refine Steady.operand h fun v t h => .ite ⟨h, fun r u => ?_⟩ (.value h _)
  have hnext : (Plan.last ⟨.loop c b, ctx, u⟩).Steady ((y.withLog t).withLog u) :=
    Steady.last (h.withLog u)
  cases r with
  | none => exact hnext
  | some v =>
    cases v with
    | brk | ret | err => exact Steady.value (h.withLog u) _
    | _ => exact hnext

/-- Statements are run one after another with the same calls active. -/
theorem stmtsPlan_steady (h : y.Fits ctx s) (ss : List Stmt) (last : Result) :
    (stmtsPlan ctx s last ss).Steady y := by
  cases ss with
  | nil => exact h.log
  | cons st ss =>
    refine ⟨h, fun r t => .ite rfl ?_⟩
    exact Steady.last (v := ⟨.stmts ss r, ctx, t⟩) (h.withLog t)

/-- A statement evaluates its expression or its block with the same calls active. -/
theorem stmtPlan_steady (h : y.Fits ctx s) (st : Stmt) : (stmtPlan ctx s st).Steady y := by
  cases st with
  | missing | brk => exact Steady.value h _
  | bind t x e =>
    rw [stmtPlan]
    refine Steady.operand h fun v t h => ?_
    cases x with
    | none => trivial
    | some x => exact h.log
  | ret t e =>
    rw [stmtPlan]
    exact .ite (.value h _) (.operand h fun v t h => .value h _)
  | expr t e => exact Steady.last (v := ⟨.expr e, ctx, s⟩) h
  | block b => exact Steady.last (v := ⟨.block b, ctx, s⟩) h

end

/-- **Every plan is steady** from the moment on when its evaluation has begun.  The events of a plan
    are those of its parts, which are tracked on their own, so between them the tally only has to
    agree with the log. -/
theorem Visit.plan_steady {y : Tally} {v : Visit} (h : y.Fits v.ctx v.store) :
    v.plan.Steady (y.note (.began v)) := by
  obtain ⟨j, ctx, s⟩ := v
  cases j with
  | expr e => exact exprPlan_steady h e
  | logical e =>
    show (Plan.operand ctx e s fun v s => .value (.bool v.truthy) s).Steady y
    exact Steady.operand h fun v t h => Steady.value h _
  | args es => exact argsPlan_steady h es
  | call f vs => exact callPlan_steady h f vs
  | loop c b => exact loopPlan_steady h c b
  | block b =>
    cases b with
    | missing => trivial
    | mk t ss => exact Steady.last (v := ⟨.stmts ss none, ctx, s⟩) h
  | stmts ss last => exact stmtsPlan_steady h ss last
  | stmt st => exact stmtPlan_steady h st

/-! ### Evaluations -/

/-- The tally tracks the events up to the outcome.  When that is an end, the same calls are active
    as at the start, and those in the store are noted down. -/
structure Tally.Follows {α : Type} (y : Tally) (evs : List Event) (o : Outcome α) : Prop where
  /-- Each event finds the tally as it should be. -/
  tracks : y.Tracks evs
  /-- In the end the stack is what it was, and the log is that of the store. -/
  ends : o.Sat True fun _ s => y.after evs = y.withLog s

namespace Tally.Follows

variable {α β : Type} {y : Tally}

/-- An outcome without events is followed if it has left the log as it was. -/
theorem nil {o : Outcome α} (h : o.Sat True fun _ s => s.calls = y.log) : y.Follows [] o := by
  refine ⟨trivial, h.mono fun _ s hs => ?_⟩
  rw [withLog, hs]
  rfl

/-- One evaluation after another. -/
theorem bind {evs : List Event} {o : Outcome α} {more : α → Store → List Event}
    {k : α → Store → Outcome β} (h : y.Follows evs o)
    (hk : ∀ a s, (y.withLog s).Follows (more a s) (k a s)) :
    y.Follows (evs ++ o.after more) (o.bind k) := by
  have hends := h.ends
  cases o with
  | fault | outOfFuel =>
    -- Nothing goes on from an evaluation that does not end.
    rw [Outcome.after, List.append_nil]
    exact ⟨h.tracks, trivial⟩
  | done a s =>
    have hafter : y.after evs = y.withLog s := hends
    obtain ⟨htracks, hmore⟩ := hk a s
    refine ⟨tracks_append.2 ⟨h.tracks, ?_⟩, hmore.mono fun _ t ht => ?_⟩
    · rw [hafter]
      exact htracks
    · rw [after_append, hafter]
      exact ht

end Tally.Follows

/-- Carrying out a steady plan. -/
theorem Plan.Steady.follows {α : Type} {p : Plan α} {y : Tally} {fuel : Nat} (h : p.Steady y)
    (ih : ∀ (y : Tally) (v : Visit), y.Fits v.ctx v.store → y.Follows (v.trace fuel) (v.run fuel)) :
    y.Follows ((p.visits fuel).flatMap (Visit.trace fuel)) (p.run fuel) := by
  induction p generalizing y with
  | stop o => exact .nil h
  | ask v k ihk =>
    rw [flatMap_visits_ask]
    exact (ih y v h.1).bind fun r s => ihk r s (h.2 r s)

namespace Visit

variable {y : Tally} {v : Visit} {s : Store}

/-- What a call adds to the stack is there when it ends. -/
theorem ended_agrees (r : v.job.Result) :
    (Event.ended v r s).Agrees ((y.note (.began v)).withLog s) := by
  refine ⟨rfl, fun c hc => ?_⟩
  rw [Tally.note, Option.mem_def.1 hc]
  rfl

/-- What a call adds to the stack is gone after it. -/
theorem note_ended (r : v.job.Result) :
    ((y.note (.began v)).withLog s).note (.ended v r s) = y.withLog s := by
  rw [Tally.note, Tally.note]
  cases v.callee? <;> rfl

/-- **A tally tracks every evaluation**, by induction on the bound: what the evaluation is made of
    is tracked with its call on the stack, which its end takes off. -/
theorem follows (fuel : Nat) (y : Tally) (v : Visit) (h : y.Fits v.ctx v.store) :
    y.Follows (v.trace fuel) (v.run fuel) := by
  induction fuel generalizing y v with
  | zero => exact ⟨trivial, by rw [run_zero]; trivial⟩
  | succ fuel ih =>
    have hparts := (plan_steady h).follows ih
    rw [← run_succ] at hparts
    have hends := hparts.ends
    rw [trace]
    cases ho : v.run (fuel + 1) with
    | fault | outOfFuel =>
      rw [ending, List.append_nil]
      exact ⟨⟨h, hparts.tracks⟩, trivial⟩
    | done r s =>
      -- The parts have left the tally with the call on the stack, where its end finds it.
      rw [ho] at hends
      have hafter : (y.note (.began v)).after ((v.plan.visits fuel).flatMap (trace fuel)) =
          (y.note (.began v)).withLog s := hends
      refine ⟨⟨h, Tally.tracks_append.2 ⟨hparts.tracks, ?_⟩⟩, ?_⟩
      · rw [hafter]
        exact ⟨ended_agrees r, trivial⟩
      · show (y.note (.began v)).after (_ ++ [.ended v r s]) = _
        rw [Tally.after_append, hafter]
        exact note_ended r

end Visit

/-- The statements of a program, which are evaluated one after another like those of a block. -/
theorem program_follows (fuel : Nat) (y : Tally) (ctx : Context) (ss : List Stmt) (last : Result)
    (s : Store) (h : y.Fits ctx s) :
    y.Follows (programTrace ctx fuel ss s) (program fuel ctx ss last s) := by
  induction fuel generalizing y ss last s with
  | zero => exact .nil (by simp only [program]; trivial)
  | succ fuel ih =>
    cases ss with
    | nil => exact .nil (by simp only [program]; exact h.log)
    | cons st ss =>
      rw [program_cons, programTrace]
      refine (Visit.follows fuel y ⟨.stmt st, ctx, s⟩ h).bind fun r t => ?_
      cases hr : Result.isSignal r with
      | true => exact .nil rfl
      | false => exact ih _ ss r t (h.withLog t)

/-! ### Depths -/

/-- Depths that start at one, never exceed the limit, are at least one, and never rise by more than
    one from one to the next. -/
structure Climbs (limit : Nat) (ds : List Nat) : Prop where
  /-- The first call is made from the outside. -/
  start : ∀ d ∈ ds.head?, d = 1
  /-- No call is deeper than the limit. -/
  within : ∀ d ∈ ds, 1 ≤ d ∧ d ≤ limit
  /-- From one call to the next the depth goes up by one at most, but down as far as it likes. -/
  rise : ds.IsChain fun d d' => d' ≤ d + 1

theorem Climbs.nil (limit : Nat) : Climbs limit [] := ⟨by simp, by simp, .nil⟩

/-- One more depth at the end: it is within the limit, and at most one more than the last one, which
    counts as zero when there is none. -/
theorem Climbs.snoc {limit d : Nat} {ds : List Nat} (h : Climbs limit ds) (hpos : 1 ≤ d)
    (hlimit : d ≤ limit) (hd : d ≤ ds.getLast?.getD 0 + 1) : Climbs limit (ds ++ [d]) where
  start := by
    -- The first depth is the new one only if there was none, and then it is at most one.
    cases ds with
    | nil =>
      intro d' hd'
      obtain rfl : d = d' := by simpa using hd'
      have hone : d ≤ 1 := hd
      omega
    | cons d' ds => exact h.start
  within := by
    intro d' hd'
    rcases List.mem_append.1 hd' with hd' | hd'
    · exact h.within d' hd'
    · rw [List.mem_singleton.1 hd']
      exact ⟨hpos, hlimit⟩
  rise := by
    refine List.isChain_append.2 ⟨h.rise, .singleton d, fun d' hlast d'' hhead => ?_⟩
    obtain rfl : d = d'' := by simpa using hhead
    rw [Option.mem_def.1 hlast] at hd
    exact hd

namespace Tally

/-- The depths noted down so far, in order. -/
def depths (y : Tally) : List Nat := y.log.reverse.map Call.depth

/-- The depths noted down climb, and no more calls are active than when the last one was. -/
structure Sound (y : Tally) : Prop where
  /-- The depths that were noted down are those of calls inside calls. -/
  climbs : Climbs y.limit y.depths
  /-- The last call that was noted down is at least as deep as the stack is now. -/
  active : y.active.length ≤ y.depths.getLast?.getD 0

variable {y : Tally} {ev : Event} {evs : List Event}

theorem limit_note : (y.note ev).limit = y.limit := by
  cases ev <;> rw [note] <;> cases Visit.callee? _ <;> rfl

/-- Nor do any number of events. -/
theorem limit_after : (y.after evs).limit = y.limit := by
  induction evs generalizing y with
  | nil => rfl
  | cons ev evs ih => exact ih.trans limit_note

theorem sound_start (limit : Nat) : (start limit).Sound := ⟨.nil limit, Nat.le_refl 0⟩

/-- A call that has room under the limit is noted down at most one deeper than the last one: no more
    calls are active than when that one was noted down. -/
theorem Sound.enter (h : y.Sound) (hroom : y.active.length < y.limit) (c : Closure) :
    (y.enter c).Sound := by
  have hdepths : (y.enter c).depths = y.depths ++ [y.active.length + 1] := by
    simp [Tally.enter, depths]
  constructor
  · rw [hdepths]
    exact h.climbs.snoc (by omega) hroom (Nat.succ_le_succ h.active)
  · rw [hdepths, List.getLast?_concat]
    exact Nat.le_refl _

/-- When a call ends nothing is noted down, and one call less is active. -/
theorem Sound.leave (h : y.Sound) : y.leave.Sound := by
  refine ⟨h.climbs, Nat.le_trans ?_ h.active⟩
  show y.active.tail.length ≤ y.active.length
  rw [List.length_tail]
  omega

/-- **An event that the tally agrees with keeps it sound.**  A call that begins is one deeper than
    the innermost active one, and below the limit; one that ends takes that one off. -/
theorem Sound.note (h : y.Sound) (hev : ev.Agrees y) : (y.note ev).Sound := by
  cases ev with
  | began v =>
    rw [Tally.note]
    cases hc : v.callee? with
    | none => exact h
    | some c =>
      have hroom := Visit.callee?_eq_some hc
      rw [hev.depth, hev.limit] at hroom
      exact h.enter hroom c
  | ended v r s =>
    rw [Tally.note]
    cases v.callee? with
    | none => exact h
    | some c => exact h.leave

/-- **So it is sound after any number of events.**  Soundness is a matter of the events alone, so no
    evaluation has to be looked at any more. -/
theorem Tracks.sound (h : y.Tracks evs) (hy : y.Sound) : (y.after evs).Sound := by
  induction evs generalizing y with
  | nil => exact hy
  | cons ev evs ih => exact ih h.2 (hy.note h.1)

end Tally

end Eval

/-! ### Requests -/

namespace Session

variable {s s' : Session} {fuel : Nat} {source : String} {rs : List Request}

/-- Between two requests no call is noted down, the limit stays, and the evaluator is at the depth
    and in the environment that it was in: a request that has failed calls deep has left all of
    them. -/
theorem Ends.kept (h : s.Ends rs s') (hcalls : s.store.calls = []) :
    s'.store.calls = [] ∧ s'.limit = s.limit ∧ s'.depth = s.depth ∧ s'.env = s.env :=
  h.of_evaluate
    (P := fun t => t.store.calls = [] ∧ t.limit = s.limit ∧ t.depth = s.depth ∧ t.env = s.env)
    (fun ht _ _ => ⟨rfl, ht.2⟩) ⟨hcalls, rfl, rfl, rfl⟩

/-- The calls in the log of an evaluation are those that it has noted down. -/
theorem calls_evaluated (s : Session) (p : Parsed) (r : Result) (store : Store) :
    Log.calls (s.evaluated p r store).log = store.calls.reverse := by
  simp [evaluated, Log.calls, parsedEntry]

/-- A source that is not evaluated makes no calls. -/
theorem calls_rejected {α : Type} (s : Session) (p : Parsed) (result : α) (printed : List Line) :
    Log.calls (s.rejected p result printed).log = [] := rfl

/-- The entry about the value that running a source adds to the log is no call. -/
theorem calls_ran (t : Turn Result) : Log.calls (ran t).log = Log.calls t.log := by
  rw [ran, Log.calls_append]
  exact List.append_nil _

/-- A tree is made without a call. -/
theorem tree_calls {t : Turn (Except String String)} (h : s.tree source = some t) :
    Log.calls t.log = [] := by
  simp only [tree] at h
  split at h
  · rw [← Option.some.inj h]
    exact calls_rejected ..
  · simp only [Option.bind_eq_bind, Option.bind_eq_some_iff, Option.some.injEq] at h
    obtain ⟨outline, -, rfl⟩ := h
    exact calls_rejected ..

end Session

namespace Request

variable {s : Session} {fuel : Nat} {r : Request}

/-- What is noted down during the request, under a bound on the nesting of evaluations. -/
def logWithin (fuel : Nat) (s : Session) : Request → Option (List Log.Entry)
  | run source => (s.runWithin fuel source).map Turn.log
  | print source => (s.printWithin fuel source).map Turn.log
  | tree source => (s.tree source).map Turn.log
  | execute asTree source => (s.executeWithin fuel asTree source).map Turn.log

/-- All that happens during the request, in order: nothing, unless it evaluates its source. -/
def events (fuel : Nat) (s : Session) (r : Request) : List Eval.Event :=
  if r.counts then
    (Node.program (parse r.source).program).trace fuel s.context s.store
  else []

/-- The calls that a request notes down, of which there are none unless it counts. -/
def Notes (r : Request) (fuel : Nat) (s : Session) (calls : List Call) : Prop :=
  if r.counts then ∃ t, s.evaluateWithin fuel (parse r.source) = some t ∧ calls = Log.calls t.log
  else calls = []

/-- A source that is run notes down the calls of its evaluation, or none when it has faults. -/
theorem notes_run {source : String} {t : Turn (Except String Result)}
    (h : s.runWithin fuel source = some t) : (run source).Notes fuel s (Log.calls t.log) := by
  by_cases hclean : (parse source).diagnostics = []
  · have hcounts : (run source).counts = true := by simp [counts, evaluates, Request.source, hclean]
    rw [Session.runWithin_of_clean hclean] at h
    obtain ⟨u, hu, rfl⟩ := Option.map_eq_some_iff.1 h
    rw [Notes, if_pos hcounts]
    exact ⟨u, hu, Session.calls_ran u⟩
  · have hcounts : ¬ (run source).counts = true := by
      simp [counts, evaluates, Request.source, hclean]
    rw [Session.runWithin_of_faulty hclean] at h
    rw [Notes, if_neg hcounts, ← Option.some.inj h]
    exact Session.calls_rejected ..

/-- The same holds of a source whose value is printed. -/
theorem notes_print {source : String} {u : Turn Bool}
    (h : s.printWithin fuel source = some u) : (print source).Notes fuel s (Log.calls u.log) := by
  by_cases hclean : (parse source).diagnostics = []
  · have hcounts : (print source).counts = true := by
      simp [counts, evaluates, Request.source, hclean]
    rw [Session.printWithin_of_clean hclean] at h
    obtain ⟨t, ht, hu⟩ := Option.bind_eq_some_iff.1 h
    rw [Notes, if_pos hcounts]
    exact ⟨t, ht, congrArg Log.calls (Session.shown_session hu).2⟩
  · have hcounts : ¬ (print source).counts = true := by
      simp [counts, evaluates, Request.source, hclean]
    rw [Session.printWithin_of_faulty hclean] at h
    rw [Notes, if_neg hcounts, ← Option.some.inj h]
    exact Session.calls_rejected ..

/-- Whatever a request is for, what it notes down are the calls of the evaluation, if it makes
    one. -/
theorem notes_of_logWithin {log : List Log.Entry} (h : r.logWithin fuel s = some log) :
    r.Notes fuel s (Log.calls log) := by
  cases r with
  | run source =>
    obtain ⟨t, ht, rfl⟩ := Option.map_eq_some_iff.1 h
    exact notes_run ht
  | print source =>
    obtain ⟨u, hu, rfl⟩ := Option.map_eq_some_iff.1 h
    exact notes_print hu
  | tree source =>
    obtain ⟨t, ht, rfl⟩ := Option.map_eq_some_iff.1 h
    exact Session.tree_calls ht
  | execute asTree source =>
    obtain ⟨x, hx, rfl⟩ := Option.map_eq_some_iff.1 h
    cases asTree with
    | true =>
      obtain ⟨t, ht, -, u, hu, hlog⟩ := @Session.executeWithin_tree s fuel source
      obtain rfl := Option.some.inj (ht.symm.trans hx)
      rw [hlog]
      exact Session.tree_calls hu
    | false =>
      rw [Session.executeWithin_value] at hx
      obtain ⟨u, hu, rfl⟩ := Option.map_eq_some_iff.1 hx
      exact notes_print hu

/-- **A tally tracks every request** on a session with no calls noted down and none under way, and
    when the request ends no call is active. -/
theorem tracks (hcalls : s.store.calls = []) (hdepth : s.depth = 0) (fuel : Nat) (r : Request) :
    (Eval.Tally.start s.limit).Tracks (r.events fuel s) ∧
      ∀ log, r.logWithin fuel s = some log →
        (Eval.Tally.start s.limit).after (r.events fuel s) =
          ⟨s.limit, [], (Log.calls log).reverse⟩ := by
  have hfollows := Eval.program_follows fuel (.start s.limit) s.context
    (parse r.source).program.stmts none s.store ⟨rfl, hdepth, hcalls⟩
  by_cases hr : r.counts = true
  · rw [events, if_pos hr]
    refine ⟨hfollows.tracks, fun log hlog => ?_⟩
    have hnotes := notes_of_logWithin hlog
    rw [Notes, if_pos hr] at hnotes
    -- The request counts, so its events are those of the evaluation that it makes.
    obtain ⟨t, ht, hnoted⟩ := hnotes
    obtain ⟨x, store, hend, rfl⟩ := Session.evaluateWithin_eq_some_iff.1 ht
    have hends := hfollows.ends
    rw [hend] at hends
    rw [hnoted, Session.calls_evaluated, List.reverse_reverse]
    exact hends
  · rw [events, if_neg hr]
    refine ⟨trivial, fun log hlog => ?_⟩
    have hnotes := notes_of_logWithin hlog
    rw [Notes, if_neg hr] at hnotes
    rw [hnotes]
    rfl

end Request

namespace Session

open Eval (Tally Climbs)

/-- **How deeply calls are nested is tracked exactly.**  After any requests to a session, take any
    other request under any bound.  The evaluator, which counts up where a function is entered and
    down where it is left, has come back to zero, and to no environment, whatever the requests have
    ended with and however deep in calls.  A tally that starts with no active call agrees with all
    that happens during the request, at the moment when it happens: as many calls are active as the
    depth of each evaluation says, and the calls in the store are those that the tally has noted
    down.  Their depths start at one, stay within the limit and go up one by one, also when the
    request does not end.  When it ends, with whatever result, no call is active any more, the log
    has the calls that the tally has noted down, and the evaluator has come back to zero again. -/
theorem depth_tracked {paint : Paint} {settings : Settings} {rs : List Request} {s : Session}
    (h : (ofSettings paint settings).Ends rs s) (r : Request) (fuel : Nat) :
    (s.depth = 0 ∧ s.env = none) ∧
    (∀ before ev after, r.events fuel s = before ++ ev :: after →
      ev.Agrees ((Tally.start settings.limit).after before) ∧
      Climbs settings.limit ((Tally.start settings.limit).after before).depths) ∧
    (∀ log, r.logWithin fuel s = some log →
      (Tally.start settings.limit).after (r.events fuel s) =
        ⟨settings.limit, [], (Log.calls log).reverse⟩ ∧
      Climbs settings.limit ((Log.calls log).map Call.depth)) ∧
    ∀ s', r.doneWithin fuel s = some s' → s'.depth = 0 ∧ s'.env = none := by
  obtain ⟨hcalls, hlimit, hdepth, henv⟩ := h.kept rfl
  have hdepth : s.depth = 0 := hdepth
  obtain ⟨htracks, hends⟩ := Request.tracks hcalls hdepth fuel r
  rw [hlimit] at htracks hends
  have hsound := Tally.sound_start settings.limit
  refine ⟨⟨hdepth, henv⟩, ?_, ?_, ?_⟩
  · intro before ev after hevents
    have htracks : (Tally.start settings.limit).Tracks (r.events fuel s) := htracks
    rw [hevents] at htracks
    -- Every moment of the run is a prefix of its events, and the tally tracks all of them.
    obtain ⟨hbefore, hrest⟩ := Tally.tracks_append.1 htracks
    have hclimbs := (hbefore.sound hsound).climbs
    rw [Tally.limit_after] at hclimbs
    exact ⟨hrest.1, hclimbs⟩
  · intro log hlog
    have hclimbs := (htracks.sound hsound).climbs
    have hafter := hends log hlog
    rw [hafter, Tally.depths, List.reverse_reverse] at hclimbs
    exact ⟨hafter, hclimbs⟩
  · intro s' hdone
    obtain ⟨-, -, hdepth', henv'⟩ := (Ends.cons fuel hdone .nil).kept hcalls
    exact ⟨hdepth'.trans hdepth, henv'.trans henv⟩

/-- Binds a function that calls itself as often as its argument says, and asks for nine times. -/
def countsDown : String :=
  "incognita f = operacion(n) \x7b si (n > 0) \x7b f(n - 1) \x7d tonces \x7b 0 \x7d \x7d; f(9)"

/-- After a request that has failed three calls deep, the evaluator is at depth zero, and the next
    request starts at one again, and goes down and up with its calls. -/
theorem depth_tracked_countsDown :
    let start := ofSettings CommandLine.ansi { maxDepth := 3 }
    ∃ s log, start.Ends [.run countsDown] s ∧ s.depth = 0 ∧ s.env = none ∧
      (Request.print "f(1) + f(0) + f(2)").logWithin 99 s = some log ∧
      (Log.calls log).map Call.depth = [1, 2, 1, 1, 2, 3] ∧
      Climbs start.limit ((Log.calls log).map Call.depth) := by
  intro start
  -- The first request goes beyond the limit of three, so it ends in an error with three calls
  -- active.
  have hrun : (((Request.run countsDown).doneWithin 99 start).bind fun s =>
      ((Request.print "f(1) + f(0) + f(2)").logWithin 99 s).map fun log =>
        (Log.calls log).map Call.depth) = some [1, 2, 1, 1, 2, 3] := by
    decide +kernel
  obtain ⟨s, hs, hrun⟩ := Option.bind_eq_some_iff.1 hrun
  obtain ⟨log, hlog, hdepths⟩ := Option.map_eq_some_iff.1 hrun
  have hends := Ends.cons 99 hs .nil
  obtain ⟨⟨hdepth, henv⟩, -, hlogged, -⟩ := depth_tracked hends (.print "f(1) + f(0) + f(2)") 99
  exact ⟨s, log, hends, hdepth, henv, hlog, hdepths, (hlogged log hlog).2⟩

end Session

end Incognita
