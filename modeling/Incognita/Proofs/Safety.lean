import Incognita.CommandLine.Libraries
import Incognita.Proofs.Jobs
import Incognita.Proofs.Operators
import Incognita.Proofs.Scopes
import Incognita.Proofs.Sessions
import Incognita.Proofs.Shape

namespace Incognita

/-!
# Eval — what reading rules out never happens

A tree without missing parts and without stray breaks runs without the errors that report them.
Functions outlive the source they stand in, so the invariant is one of the store: the body of
every function that is bound anywhere is such a tree.

* `RuntimeError.RuledOut` — the errors that a faultless source cannot run into;
* `Value.Safe` — a value with which nothing of the kind can happen.  A break is safe where it is
  in a loop;
* `Store.Safe` — every value that is bound is plain and safe;
* `Eval.Job.run_safe` — evaluations keep the store safe and give safe results;
* `Session.Reached.safe` — whatever has run in a session, its store is safe.
-/

/-! ### Errors -/

namespace RuntimeError

/-- The errors that a source without faults cannot run into, told by their wording. -/
def RuledOut (e : RuntimeError) : Prop :=
  e.message = "expresión inválida" ∨ e.message = "'termina' fuera de un ciclo" ∨
    ∃ rest, e.message = "entero inválido" ++ rest

theorem head?_append {s t : String} {c : Char} (h : s.toList.head? = some c) :
    (s ++ t).toList.head? = some c := by
  rw [String.toList_append, List.head?_append, h]
  rfl

/-- The first character tells the two apart. -/
theorem head?_of_ruledOut {e : RuntimeError} (h : e.RuledOut) :
    e.message.toList.head? = some 'e' ∨ e.message.toList.head? = some '\'' := by
  rcases h with h | h | ⟨rest, h⟩ <;> rw [h]
  · exact .inl (by decide)
  · exact .inr (by decide)
  · exact .inl (head?_append (by decide))

/-- The messages of ordinary errors start with letters of their own. -/
theorem head?_of_ordinary {e : RuntimeError} (h : e.ordinary = true) :
    ∃ c ∈ ['o', 'd', 'i', 'n', 'p'], e.message.toList.head? = some c := by
  cases e with
  -- The messages are put together from several texts, of which the first one counts.
  | unknownUnary op k => exact ⟨'o', by decide, head?_append (head?_append (by decide))⟩
  | unknownBinary l op r =>
    exact ⟨'o', by decide, head?_append (head?_append (head?_append (head?_append
      (head?_append (by decide)))))⟩
  | typeMismatch l op r =>
    exact ⟨'d', by decide, head?_append (head?_append (head?_append (head?_append
      (head?_append (by decide)))))⟩
  | unbound name => exact ⟨'i', by decide, head?_append (by decide)⟩
  | notCallable k => exact ⟨'n', by decide, head?_append (by decide)⟩
  | divisionByZero n => exact ⟨'d', by decide, head?_append (head?_append (by decide))⟩
  | wrongArity m n =>
    exact ⟨'n', by decide, head?_append (head?_append (head?_append (by decide)))⟩
  | tooDeep n => exact ⟨'p', by decide, head?_append (by decide)⟩
  | strayBreak | invalidNode | invalidInteger | custom => simp [ordinary] at h

/-- The three wordings start with `e` and with a quotation mark, so no ordinary error has them. -/
theorem not_ruledOut {e : RuntimeError} (h : e.ordinary = true) : ¬ e.RuledOut := by
  intro hr
  -- No ordinary message starts with an `e` or a quote.
  obtain ⟨c, hc, heq⟩ := head?_of_ordinary h
  rcases head?_of_ruledOut hr with hh | hh
  all_goals
    rw [heq, Option.some.injEq] at hh
    subst hh
    exact absurd hc (by decide)

end RuntimeError

/-! ### Values and stores -/

/-- The function has its parameters, its body is complete, and its breaks stand in loops. -/
structure Closure.Safe (c : Closure) : Prop where
  /-- Its parameters are all there. -/
  params : none ∉ c.params
  /-- So are all parts of its body. -/
  complete : c.body.Complete
  /-- Its breaks stand in loops of its own. -/
  breaks : c.body.strayBreaks false = 0

/-- Nothing that reading rules out happens with the value, where `inLoop` tells whether a break
    may stand there.  A function is left with a value that is no signal itself. -/
def Value.Safe (inLoop : Bool) : Value → Prop
  | .fn c => c.Safe
  | .ret v => v.isSignal = false ∧ v.Safe false
  | .err e => e.ordinary = true
  | .brk => inLoop = true
  | _ => True

/-- A safe value that is no signal. -/
structure Value.Plain (v : Value) : Prop where
  noSignal : v.isSignal = false
  safe : v.Safe false

/-- Every value that is bound is plain and safe. -/
def Store.Safe (s : Store) : Prop := ∀ i x v, s.binding? i x = some v → v.Plain

namespace Value

variable {v w : Value} {inLoop : Bool}

/-- Outside of loops less is safe. -/
theorem Safe.mono (h : v.Safe false) : v.Safe inLoop := by
  cases v <;> first | exact h | exact absurd h (by simp [Safe])

/-- A safe value that is no signal is plain. -/
theorem Safe.plain (h : v.Safe inLoop) (hv : v.isSignal = false) : v.Plain := by
  refine ⟨hv, ?_⟩
  cases v <;> first | exact h | exact absurd hv (by simp [isSignal])

/-- What operators compute is safe anywhere: it is data, or an ordinary error. -/
theorem Computed.safe (h : v.Computed) : v.Safe inLoop := by
  cases h with
  | int | bool | str => trivial
  | err he => exact he

end Value

/-- A result that is safe where it is. -/
def Result.Safe (inLoop : Bool) (r : Result) : Prop := ∀ v ∈ r, v.Safe inLoop

/-- What stands for a missing result is `null`. -/
theorem Result.Safe.getD {inLoop : Bool} {r : Result} (h : r.Safe inLoop) :
    (r.getD .null).Safe inLoop := by
  cases r with
  | none => trivial
  | some v => exact h v rfl

theorem Result.safe_some {inLoop : Bool} {v : Value} :
    Result.Safe inLoop (some v) ↔ v.Safe inLoop := by
  simp [Result.Safe]

namespace Store

variable {s : Store}

/-- What a safe store binds is plain. -/
theorem Safe.get? (h : s.Safe) {path : List ScopeId} {x : String} {v : Value}
    (hv : s.get? path x = some v) : v.Plain := by
  obtain ⟨i, -, hb⟩ := binding?_of_get? hv
  exact h i x v hb

/-- A store stays safe if a plain value is bound in it. -/
theorem Safe.set (h : s.Safe) {i : ScopeId} {x : String} {v : Value} (hv : v.Plain) :
    (s.set i x v).Safe := by
  intro j y w hw
  rw [binding?_set] at hw
  split at hw
  · rw [Option.some.injEq] at hw
    exact hw ▸ hv
  · exact h j y w hw

/-- The scope of a call binds parameters to plain values. -/
theorem Safe.alloc (h : s.Safe) (outer : List ScopeId) (ps : List Ident) {vs : List Value}
    (hvs : ∀ v ∈ vs, v.Plain) : (s.alloc outer (bindParams ps vs)).2.Safe := by
  intro j y w hw
  rw [binding?_alloc] at hw
  split at hw
  · exact hvs w (lookup_bindParams hw)
  · exact h j y w hw

theorem Safe.logCall (h : s.Safe) (c : Closure) (n : Nat) : (s.logCall c n).Safe := h

end Store

namespace Eval

/-! ### Evaluations -/

/-- What a call gives is a safe value that breaks no loop. -/
theorem safe_unwrap {r : Result} (h : r.Safe false) : (unwrap r).Safe false := by
  cases r with
  | none => trivial
  | some v =>
    -- A return ends here, and a break cannot come out of a body whose breaks stand in loops.
    have hv : v.Safe false := h v rfl
    cases v with
    | ret w => exact hv.2
    | brk => exact absurd hv (by simp [Value.Safe])
    | _ => exact hv

namespace Job

/-- The tree of the evaluation is complete, and its breaks stand in loops, where `inLoop` tells
    whether the evaluation itself does. -/
def Sound (inLoop : Bool) : Job → Prop
  | expr e | logical e => e.Complete ∧ e.strayBreaks inLoop = 0
  | args es => Expr.CompleteAll es ∧ Expr.strayBreaksAll inLoop es = 0
  | call f vs => f.Plain ∧ ∀ v ∈ vs, v.Plain
  | loop c b => (c.Complete ∧ c.strayBreaks inLoop = 0) ∧ b.Complete ∧ b.strayBreaks true = 0
  | block b => b.Complete ∧ b.strayBreaks inLoop = 0
  | stmts ss last =>
    (Stmt.CompleteAll ss ∧ Stmt.strayBreaksAll inLoop ss = 0) ∧ Result.Safe inLoop last
  | stmt st => st.Complete ∧ st.strayBreaks inLoop = 0

/-- What the evaluation gives is safe. -/
def Gives (inLoop : Bool) : (j : Job) → j.Result → Prop
  | args _, .ok vs => ∀ v ∈ vs, v.Plain
  | args _, .error v => v.Safe inLoop
  | expr _, r | logical _, r | call _ _, r | loop _ _, r | block _, r | stmts _ _, r
  | stmt _, r => Result.Safe inLoop r

/-- Every evaluation of a sound tree keeps the store safe and gives something safe. -/
def AllSafe (fuel : Nat) : Prop :=
  ∀ (j : Job) (ctx : Context) (s : Store) (inLoop : Bool), j.Sound inLoop → s.Safe →
    (j.run fuel ctx s).Sat False fun r t => j.Gives inLoop r ∧ t.Safe

/-- A safe result in a safe store. -/
abbrev Good (inLoop : Bool) (r : Incognita.Result) (t : Store) : Prop :=
  Result.Safe inLoop r ∧ t.Safe

variable {fuel : Nat} {ctx : Context} {s : Store} {inLoop : Bool}

/-- An evaluation that is done with a safe value in a safe store is good. -/
theorem done_good {v : Value} (hv : v.Safe inLoop) (hs : s.Safe) :
    (Outcome.done (some v) s).Sat False (Good inLoop) :=
  ⟨Result.safe_some.2 hv, hs⟩

/-- An operand that is no signal is plain. -/
theorem operand_good {o : Outcome Incognita.Result} {k : Value → Store → Outcome Incognita.Result}
    (h : o.Sat False (Good inLoop))
    (hk : ∀ v t, v.Plain → t.Safe → (k v t).Sat False (Good inLoop)) :
    (o.operand k).Sat False (Good inLoop) := by
  refine h.operand ?_ ?_
  · intro r t hr _
    exact ⟨Result.safe_some.2 hr.1.getD, hr.2⟩
  · intro r t hr hv
    exact hk _ t (hr.1.getD.plain hv) hr.2

/-- The step for expressions. -/
theorem expr_safe (ih : AllSafe fuel) (e : Expr) (he : e.Complete)
    (hb : e.strayBreaks inLoop = 0) (hs : s.Safe) :
    (Eval.expr (fuel + 1) ctx e s).Sat False (Good inLoop) := by
  cases e with
  | missing => exact he.elim
  | ident x =>
    rw [expr_ident]
    refine done_good ?_ hs
    cases hv : s.get? ctx.env.path x.name with
    | none => rfl
    | some v => exact (hs.get? hv).safe.mono
  | int t v =>
    cases v with
    | none => exact absurd rfl he
    | some n => simp only [Eval.expr]; exact done_good trivial hs
  | bool t b => simp only [Eval.expr]; exact done_good trivial hs
  | str t v => simp only [Eval.expr]; exact done_good trivial hs
  | unary t op e =>
    simp only [Eval.expr]
    refine operand_good (ih (.expr e) ctx s inLoop ⟨he, hb⟩ hs) fun v t _ ht => ?_
    exact done_good (Value.computed_unary op v).safe ht
  | binary t l op r =>
    obtain ⟨hl, hr⟩ := he
    obtain ⟨hbl, hbr⟩ := Nat.add_eq_zero_iff.1 hb
    simp only [Eval.expr]
    refine operand_good (ih (.expr l) ctx s inLoop ⟨hl, hbl⟩ hs) fun v t _ ht => ?_
    have hlogical := ih (.logical r) ctx t inLoop ⟨hr, hbr⟩ ht
    split
    · split
      · exact hlogical
      · exact done_good trivial ht
    · split
      · split
        · exact done_good trivial ht
        · exact hlogical
      · refine operand_good (ih (.expr r) ctx t inLoop ⟨hr, hbr⟩ ht) fun w t _ ht => ?_
        exact done_good (Value.computed_binary op v w).safe ht
  | choice t c a b =>
    obtain ⟨hc, ha, hbm⟩ := he
    obtain ⟨hca, hbb⟩ := Nat.add_eq_zero_iff.1 hb
    obtain ⟨hbc, hba⟩ := Nat.add_eq_zero_iff.1 hca
    rw [expr_choice]
    refine operand_good (ih (.expr c) ctx s inLoop ⟨hc, hbc⟩ hs) fun v t _ ht => ?_
    split
    · exact ih (.block a) ctx t inLoop ⟨ha, hba⟩ ht
    · split
      · exact done_good trivial ht
      -- The alternative is there, and it is the only part of a choice that need not be.
      · next hm =>
        have hbc : b.Complete := hbm.resolve_left (by rintro rfl; exact hm rfl)
        exact ih (.block b) ctx t inLoop ⟨hbc, hbb⟩ ht
  | loop t c b =>
    obtain ⟨hbc, hbb⟩ := Nat.add_eq_zero_iff.1 hb
    simp only [Eval.expr]
    exact ih (.loop c b) ctx s inLoop ⟨⟨he.1, hbc⟩, he.2, hbb⟩ hs
  | fn t ps b =>
    simp only [Eval.expr]
    -- The body is part of the tree, so it is as sound as the tree.
    exact ⟨Result.safe_some.2 (⟨he.1, he.2, hb⟩ : Closure.Safe ⟨t, ps, b, _, _⟩), hs⟩
  | call t f as =>
    obtain ⟨hbf, hba⟩ := Nat.add_eq_zero_iff.1 hb
    simp only [Eval.expr]
    refine operand_good (ih (.expr f) ctx s inLoop ⟨he.1, hbf⟩ hs) fun v t hv ht => ?_
    refine (ih (.args as) ctx t inLoop ⟨he.2, hba⟩ ht).bind fun vs t hvs => ?_
    cases vs with
    | ok vs => exact ih (.call v vs) ctx t inLoop ⟨hv, hvs.1⟩ hvs.2
    | error signal => exact done_good hvs.1 hvs.2

/-- The step for arguments, which are plain unless a signal among them ends the evaluation. -/
theorem args_safe (ih : AllSafe fuel) (es : List Expr) (h : (args es).Sound inLoop) (hs : s.Safe) :
    (Eval.args (fuel + 1) ctx es s).Sat False fun r t => (args es).Gives inLoop r ∧ t.Safe := by
  cases es with
  | nil => simp only [Eval.args]; exact ⟨fun v hv => absurd hv (by simp), hs⟩
  | cons e es =>
    obtain ⟨⟨he, hes⟩, hb⟩ := h
    obtain ⟨hbe, hbes⟩ := Nat.add_eq_zero_iff.1 hb
    simp only [Eval.args]
    refine (ih (.expr e) ctx s inLoop ⟨he, hbe⟩ hs).bind fun r t hr => ?_
    have hv := hr.1.getD
    -- A signal is handed on as it is, and anything else is plain.
    split
    · exact ⟨hv, hr.2⟩
    · next hn =>
      refine (ih (.args es) ctx t inLoop ⟨hes, hbes⟩ hr.2).bind fun vs t hvs => ?_
      cases vs with
      | ok vs =>
        have hplain := hv.plain (Bool.eq_false_iff.2 hn)
        exact ⟨List.forall_mem_cons.2 ⟨hplain, hvs.1⟩, hvs.2⟩
      | error signal => exact hvs

/-- The step for calls.  The body starts outside of loops, wherever the call itself stands. -/
theorem call_safe (ih : AllSafe fuel) (f : Value) (vs : List Value) (hf : f.Plain)
    (hvs : ∀ v ∈ vs, v.Plain) (hs : s.Safe) :
    (Eval.call (fuel + 1) ctx f vs s).Sat False (Good inLoop) := by
  cases f with
  | fn c =>
    simp only [Eval.call]
    split
    · exact done_good rfl hs
    · split
      · exact done_good rfl hs
      cases hnames : Ident.present? c.params with
      | none => exact hf.safe.params (Ident.present?_eq_none_iff.1 hnames)
      | some names =>
        -- The body stands in no loop, whatever the call stands in.
        have hbody : (block c.body).Sound false := ⟨hf.safe.complete, hf.safe.breaks⟩
        have hstore := (hs.alloc c.scopes names hvs).logCall c (ctx.depth + 1)
        refine (ih (.block c.body) _ _ false hbody hstore).bind fun r t hr => ?_
        exact done_good (safe_unwrap hr.1).mono hr.2
  | _ => simp only [Eval.call]; exact done_good rfl hs

/-- The step for loops, whose body may break even if the loop itself may not. -/
theorem loop_safe (ih : AllSafe fuel) (c : Expr) (b : Block) (h : (loop c b).Sound inLoop)
    (hs : s.Safe) : (Eval.loop (fuel + 1) ctx c b s).Sat False (Good inLoop) := by
  simp only [Eval.loop]
  refine operand_good (ih (.expr c) ctx s inLoop h.1 hs) fun v t _ ht => ?_
  split
  -- The body is safe with a break in it, which ends here.
  · refine (ih (.block b) ctx t true h.2 ht).bind fun r t hr => ?_
    split
    · exact done_good trivial hr.2
    · next v => exact done_good (hr.1 (.ret v) rfl) hr.2
    · next e => exact done_good (hr.1 (.err e) rfl) hr.2
    · exact ih (.loop c b) ctx t inLoop h hr.2
  · exact done_good trivial ht

/-- The step for statements one after the other. -/
theorem stmts_safe (ih : AllSafe fuel) (ss : List Stmt) (last : Incognita.Result)
    (h : (stmts ss last).Sound inLoop) (hs : s.Safe) :
    (Eval.stmts (fuel + 1) ctx ss last s).Sat False (Good inLoop) := by
  cases ss with
  | nil => simp only [Eval.stmts]; exact ⟨h.2, hs⟩
  | cons st ss =>
    obtain ⟨⟨⟨hst, hss⟩, hb⟩, -⟩ := h
    obtain ⟨hbst, hbss⟩ := Nat.add_eq_zero_iff.1 hb
    simp only [Eval.stmts]
    refine (ih (.stmt st) ctx s inLoop ⟨hst, hbst⟩ hs).bind fun r t hr => ?_
    split
    · exact hr
    · exact ih (.stmts ss r) ctx t inLoop ⟨⟨hss, hbss⟩, hr.1⟩ hr.2

/-- The step for a statement. -/
theorem stmt_safe (ih : AllSafe fuel) (st : Stmt) (h : (stmt st).Sound inLoop) (hs : s.Safe) :
    (Eval.stmt (fuel + 1) ctx st s).Sat False (Good inLoop) := by
  cases st with
  | missing => exact h.1.elim
  | bind t x e =>
    simp only [Eval.stmt]
    refine operand_good (ih (.expr e) ctx s inLoop ⟨h.1.2, h.2⟩ hs) fun v t hv ht => ?_
    cases x with
    | none => exact absurd rfl h.1.1
    | some x => exact ⟨fun w hw => absurd hw (by simp), ht.set hv⟩
  | ret t e =>
    by_cases he : e = .missing
    · simp only [he, Eval.stmt]
      exact done_good ⟨rfl, trivial⟩ hs
    · rw [stmt_ret he]
      have hc : e.Complete := h.1.resolve_left he
      refine operand_good (ih (.expr e) ctx s inLoop ⟨hc, h.2⟩ hs) fun v t hv ht => ?_
      exact done_good ⟨hv.noSignal, hv.safe⟩ ht
  | brk t =>
    simp only [Eval.stmt]
    refine done_good ?_ hs
    -- A break outside of a loop would be a stray one.
    have hb := h.2
    cases inLoop with
    | true => rfl
    | false => exact absurd hb (by simp [Stmt.strayBreaks])
  | expr t e => simp only [Eval.stmt]; exact ih (.expr e) ctx s inLoop h hs
  | block b => simp only [Eval.stmt]; exact ih (.block b) ctx s inLoop h hs

/-- **Evaluating a sound tree is safe.**  No missing part is met, the store stays safe, and the
    result is safe. -/
theorem run_safe (fuel : Nat) : AllSafe fuel := by
  induction fuel with
  | zero =>
    intro j ctx s inLoop _ _
    rw [run_zero]
    trivial
  | succ fuel ih =>
    intro j ctx s inLoop h hs
    cases j with
    | expr e => exact expr_safe ih e h.1 h.2 hs
    -- A logical operator turns its operand into a truth value.
    | logical e =>
      simp only [run, Eval.logical]
      refine operand_good (ih (.expr e) ctx s inLoop h hs) fun v t _ ht => ?_
      exact done_good trivial ht
    | args es => exact args_safe ih es h hs
    | call f vs => exact call_safe ih f vs h.1 h.2 hs
    | loop c b => exact loop_safe ih c b h hs
    | block b =>
      cases b with
      | missing => exact h.1.elim
      | mk t ss =>
        simp only [run, Eval.block]
        exact ih (.stmts ss none) ctx s inLoop ⟨h, fun v hv => absurd hv (by simp)⟩ hs
    | stmts ss last => exact stmts_safe ih ss last h hs
    | stmt st => exact stmt_safe ih st h hs

end Job

/-- Running the statements of a program is safe. -/
theorem program_safe (fuel : Nat) {ctx : Context} {ss : List Stmt} {last : Result} {s : Store}
    (hc : Stmt.CompleteAll ss) (hb : Stmt.strayBreaksAll false ss = 0) (hl : last.Safe false)
    (hs : s.Safe) : (program fuel ctx ss last s).Sat False (Job.Good false) := by
  induction fuel generalizing ss last s with
  | zero => simp only [program]; trivial
  | succ fuel ih =>
    cases ss with
    | nil => simp only [program]; exact ⟨hl, hs⟩
    | cons st ss =>
      obtain ⟨hbst, hbss⟩ := Nat.add_eq_zero_iff.1 hb
      simp only [program]
      refine (Job.run_safe fuel (.stmt st) ctx s false ⟨hc.1, hbst⟩ hs).bind fun r t hr => ?_
      split
      · next v => exact Job.done_good (hr.1 (.ret v) rfl).2 hr.2
      · next e => exact Job.done_good (hr.1 (.err e) rfl) hr.2
      -- A program stands in no loop, so none of its statements can end with a break.
      · exact absurd (hr.1 .brk rfl) (by simp [Value.Safe])
      · exact ih hc.2 hbss hr.1 hr.2

end Eval

/-! ### Sources and sessions -/

/-- A source without faults gives a sound tree. -/
theorem sound_of_parse {source : String} (h : (parse source).diagnostics = []) :
    (parse source).program.Complete ∧ (parse source).program.strayBreaks = 0 := by
  -- Without faults there is none other than stray breaks, and no stray break either.
  have hstray : ∀ d ∈ (parseTokens (tokenize source.toList)).diagnostics, d = .strayBreak := by
    intro d hd
    rw [parse] at h
    simp [h] at hd
  refine ⟨complete_of_parseTokens hstray, ?_⟩
  rw [parse, strayBreaks_of_parseTokens hstray]
  rw [parse] at h
  rw [h, List.length_nil]

namespace Session

variable {s : Session} {source : String}

/-- A source without faults runs without meeting a missing part. -/
theorem eval_safe (hs : s.store.Safe) (hp : (parse source).diagnostics = []) (fuel : Nat) :
    (Eval.program fuel s.context (parse source).program.stmts none s.store).Sat False
      (Eval.Job.Good false) := by
  obtain ⟨hc, hb⟩ := sound_of_parse hp
  exact Eval.program_safe fuel hc hb (fun v hv => absurd hv (by simp)) hs

/-- What the evaluation of a source without faults gives and leaves behind is safe. -/
theorem evaluateWithin_safe (hs : s.store.Safe) (hp : (parse source).diagnostics = [])
    {fuel : Nat} {t : Turn Result} (ht : s.evaluateWithin fuel (parse source) = some t) :
    t.result.Safe false ∧ t.session.store.Safe := by
  obtain ⟨r, store, hd, rfl⟩ := evaluateWithin_eq_some_iff.1 ht
  have he := eval_safe hs hp fuel
  rw [hd] at he
  exact he

/-- **Whatever has run, the store is safe.**  By induction on the turns of the session, each of
    which evaluates a source that was read without faults. -/
theorem Reached.safe {paint : Paint} {settings : Settings} (h : Reached paint settings s) :
    s.store.Safe := by
  refine h.of_evaluate (P := fun s => s.store.Safe) ?_ fun {s source fuel r store} hs hp hd => ?_
  · intro i x v hv
    cases i <;> simp [ofSettings, Store.initial, Store.binding?] at hv
  · have he := eval_safe hs hp fuel
    rw [hd] at he
    exact he.2

/-- **What reading rules out never happens.**  A source without faults gives a complete tree.  In
    every session it runs without meeting a missing part, whatever the bound, and neither its value
    nor the answer of the session is an error about a missing part, a stray break or an integer
    without a value. -/
theorem never_ruledOut {paint : Paint} {settings : Settings} (h : Reached paint settings s)
    (source : String) :
    ((parse source).diagnostics = [] →
      (parse source).program.Complete ∧
      (∀ fuel, (Eval.program fuel ⟨.root, 0, s.limit⟩ (parse source).program.stmts none s.store).Sat
        False fun r _ => ∀ e, r = some (.err e) → ¬ e.RuledOut) ∧
      ∀ fuel t e, s.evaluateWithin fuel (parse source) = some t → t.result = some (.err e) →
        ¬ e.RuledOut) ∧
    ∀ fuel t e, s.runWithin fuel source = some t → t.result = .ok (some (.err e)) →
      ¬ e.RuledOut := by
  have hsafe : ∀ {r : Result} {e}, r.Safe false → r = some (.err e) → ¬ e.RuledOut := by
    rintro r e hr rfl
    exact RuntimeError.not_ruledOut (hr _ rfl)
  have hvalue : (parse source).diagnostics = [] → ∀ fuel t e,
      s.evaluateWithin fuel (parse source) = some t → t.result = some (.err e) → ¬ e.RuledOut := by
    intro hp fuel t e ht
    exact hsafe (evaluateWithin_safe h.safe hp ht).1
  refine ⟨fun hp => ⟨(sound_of_parse hp).1, ?_, hvalue hp⟩, ?_⟩
  · intro fuel
    have hsat := eval_safe h.safe hp fuel
    -- No call is under way when the source is run.
    rw [context, h.depth_eq] at hsat
    exact hsat.mono fun r _ hr e => hsafe hr.1
  · intro fuel t e ht hr
    rcases run_cases ht with ⟨-, message, hm⟩ | ⟨hp, u, hu, -, hresult⟩
    · rw [hm] at hr
      exact absurd hr (by simp)
    · rw [hresult, Except.ok.injEq] at hr
      exact hvalue hp fuel u e hu hr

/-- The error that an answer of a session is, if it is one. -/
def errorOf : Except String Result → Option RuntimeError
  | .ok (some (.err e)) => some e
  | _ => none

/-- Only an error that is the result of a source without diagnostics is taken for one. -/
theorem eq_of_errorOf {r : Except String Result} {e : RuntimeError} (h : errorOf r = some e) :
    r = .ok (some (.err e)) := by
  unfold errorOf at h
  split at h
  · rw [Option.some.inj h]
  · exact absurd h (by simp)

/-- Binds a function that counts up in a loop until a break, and divides by zero. -/
def bindsBreaking : String :=
  "incognita f = operacion(n) \x7b mientras (n < 9) \x7b si (n == 3) \x7b termina; \x7d; " ++
    "incognita n = n + 1; \x7d; n / 0 \x7d;"

/-- The function is called by a later source.  Its break leaves its loop, and what it ends with is
    an error, but none of those. -/
theorem bindsBreaking_not_ruledOut :
    ∃ s t, Reached CommandLine.ansi .default s ∧ (s.get? "f").map Value.kind = some .function ∧
      s.runWithin 60 "f(0)" = some t ∧ t.result = .ok (some (.err (.divisionByZero 3))) ∧
      ¬ (RuntimeError.divisionByZero 3).RuledOut := by
  have hrun : ((ofSettings CommandLine.ansi .default).runWithin 60 bindsBreaking).bind (fun u =>
      (u.session.runWithin 60 "f(0)").map fun t =>
        ((u.session.get? "f").map Value.kind, errorOf t.result)) =
      some (some .function, some (.divisionByZero 3)) := by
    decide +kernel
  obtain ⟨u, hu, hrun⟩ := Option.bind_eq_some_iff.1 hrun
  obtain ⟨t, ht, hboth⟩ := Option.map_eq_some_iff.1 hrun
  obtain ⟨hf, herror⟩ := Prod.mk.inj hboth
  have hresult := eq_of_errorOf herror
  have hreached : Reached CommandLine.ansi .default u.session := .run 60 .start hu
  exact ⟨u.session, t, hreached, hf, ht, hresult,
    (never_ruledOut hreached "f(0)").2 60 t _ ht hresult⟩

end Session

end Incognita
