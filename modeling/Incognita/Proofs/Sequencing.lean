import Incognita.Proofs.Outcomes
import Incognita.Proofs.Plans

namespace Incognita

/-!
# Eval — programs and function bodies

The statements of a program and those of a function are run by two loops of their own.  A program
looks at every result as it comes, and turns a return or a break into what it stands for on the
spot.  A body is a block, which only tells signals from other results, and what its signal stands
for is for the call to say.  Both stop at the same statement and come to the same value.

* `Eval.conclude` — what a program makes of a result that a block would end with;
* `Eval.program_cons` — one statement of a program, in these terms;
* `Eval.program_comesTo` — a program is a block whose result is concluded;
* `Eval.outcome_call` — a call is the body, run as a block, whose result is unwrapped;
* `program_agrees_with_body` — so programs and function bodies agree.
-/

namespace Outcome

/-- It does not matter how three evaluations in a row are grouped. -/
theorem bind_assoc {α β γ : Type} {o : Outcome α} {k : α → Store → Outcome β}
    {k' : β → Store → Outcome γ} : (o.bind k).bind k' = o.bind fun a s => (k a s).bind k' := by
  cases o <;> rfl

/-- An evaluation that depends on a condition may be continued on both sides of it. -/
theorem bind_ite {α β : Type} {c : Prop} [Decidable c] {o o' : Outcome α}
    {k : α → Store → Outcome β} :
    (if c then o else o').bind k = if c then o.bind k else o'.bind k := by
  split <;> rfl

end Outcome

namespace Eval

open Outcome (ComesTo)

variable {fuel : Nat} {ctx : Context} {ss : List Stmt} {last : Result} {s : Store}

/-! ### Programs -/

/-- What a program gives when its statements, run as those of a block, end with a result. -/
def conclude : Result → Result
  | some (.ret v) => some v
  | some .brk => some (.err .strayBreak)
  | r => r

/-- A result that is no signal is left as it is. -/
theorem conclude_of_not_isSignal {r : Result} (h : Result.isSignal r = false) :
    conclude r = r := by
  cases r with
  | none => rfl
  | some v =>
    cases v with
    | ret | brk => exact absurd h (by simp [Result.isSignal, Value.isSignal])
    | _ => rfl

/-- A call unwraps a result as a program concludes it, with null for none. -/
theorem unwrap_eq (r : Result) : unwrap r = (conclude r).getD .null := by
  cases r with
  | none => rfl
  | some v => cases v <;> rfl

/-- A program goes on behind a statement unless that ends with a signal. -/
theorem program_cons {st : Stmt} :
    program (fuel + 1) ctx (st :: ss) last s =
      (stmt fuel ctx st s).bind fun r s =>
        if Result.isSignal r then .done (conclude r) s else program fuel ctx ss r s := by
  rw [program]
  refine congrArg _ (funext fun r => ?_)
  cases r with
  | none => rfl
  | some v => cases v <;> rfl

/-- **A program is a block whose result is concluded.**  A block hands returns and breaks on, and a
    program makes values and errors of them. -/
theorem program_comesTo (hlast : Result.isSignal last = false) :
    ComesTo (fun n => program n ctx ss last s)
      (((Job.stmts ss last).outcome ctx s).bind fun r s => .done (conclude r) s) := by
  -- Both loops go statement by statement, and what carries over is that no signal came so far.
  induction ss generalizing last s with
  | nil =>
    rw [outcome_stmts_nil]
    refine .of_succ (by simp only [program]) ?_
    simp only [program, Outcome.bind, conclude_of_not_isSignal hlast]
    exact .const _
  | cons st ss ih =>
    rw [outcome_stmts_cons, Outcome.bind_assoc]
    refine .of_succ (by simp only [program]) ?_
    simp only [program_cons]
    refine ((Job.stmt st).comesTo_outcome ctx s).bind fun r t => ?_
    rw [Outcome.bind_ite]
    cases hr : Result.isSignal r with
    | true => exact .const _
    | false => exact ih hr

/-- How a program can end, told by the block with the same statements. -/
theorem evaluates_program_iff (tk : Token) {r : Result} {t : Store} :
    (Node.program ⟨ss⟩).Evaluates ctx s r t ↔
      ∃ r', (Job.block (.mk tk ss)).outcome ctx s = .done r' t ∧ conclude r' = r := by
  have hends : _ ↔ ∃ n, program n ctx ss none s = .done r t :=
    (program_comesTo rfl).eq_iff (by simp)
  rw [outcome_block]
  refine hends.symm.trans ?_
  cases (Job.stmts ss none).outcome ctx s <;> simp [Outcome.bind, and_comm]

/-- The value of a program, with null for none, is that of the block, unwrapped. -/
theorem exists_evaluates_program_iff (tk : Token) {v : Value} {t : Store} :
    (∃ r, (Node.program ⟨ss⟩).Evaluates ctx s r t ∧ r.getD .null = v) ↔
      ∃ r, (Job.block (.mk tk ss)).outcome ctx s = .done r t ∧ unwrap r = v := by
  simp only [evaluates_program_iff tk, unwrap_eq]
  constructor
  · rintro ⟨_, ⟨r, hr, rfl⟩, hv⟩
    exact ⟨r, hr, hv⟩
  · rintro ⟨r, hr, hv⟩
    exact ⟨conclude r, ⟨r, hr, rfl⟩, hv⟩

/-- A program meets a missing part when the block does. -/
theorem program_fault_iff (tk : Token) :
    (∃ fuel, program fuel ctx ss none s = .fault) ↔
      (Job.block (.mk tk ss)).outcome ctx s = .fault := by
  have hends : _ ↔ ∃ n, program n ctx ss none s = .fault := (program_comesTo rfl).eq_iff (by simp)
  rw [outcome_block]
  refine hends.symm.trans ?_
  cases (Job.stmts ss none).outcome ctx s <;> simp [Outcome.bind]

/-! ### Calls -/

/-- A call that is not refused is the body, run as a block, whose result is unwrapped. -/
theorem outcome_call {c : Closure} {names : List Ident} {vs : List Value}
    (hparams : c.params = names.map some) (hlength : names.length = vs.length)
    (hdepth : ctx.depth < ctx.limit) :
    (Job.call (.fn c) vs).outcome ctx s =
      ((Job.block c.body).outcome (bodyVisit ctx s c names vs).ctx
        (bodyVisit ctx s c names vs).store).bind fun r s => .done (some (unwrap r)) s := by
  refine Job.outcome_eq ?_
  have hsame : ¬ c.params.length ≠ vs.length := by
    rw [hparams, List.length_map]
    exact not_not_intro hlength
  have hroom : ¬ ctx.limit ≤ ctx.depth := Nat.not_le.2 hdepth
  have hpresent : Ident.present? c.params = some names := Ident.present?_eq_some_iff.2 hparams
  simp only [Job.run, call, if_neg hsame, if_neg hroom, hpresent]
  exact .bind ((Job.block c.body).comesTo_outcome _ _) fun r s => .const _

/-- How a call can end, told by the block that is its body. -/
theorem calls_body_iff {c : Closure} {names : List Ident} {vs : List Value} {r : Result}
    {t : Store} (hparams : c.params = names.map some) (hlength : names.length = vs.length)
    (hdepth : ctx.depth < ctx.limit) :
    Calls ctx (.fn c) vs s r t ↔
      ∃ r', (Job.block c.body).outcome (bodyVisit ctx s c names vs).ctx
        (bodyVisit ctx s c names vs).store = .done r' t ∧ some (unwrap r') = r := by
  have hends : _ ↔ Calls ctx (.fn c) vs s r t :=
    ((Job.call (.fn c) vs).comesTo_outcome ctx s).eq_iff (by simp)
  rw [outcome_call hparams hlength hdepth] at hends
  refine hends.symm.trans ?_
  cases (Job.block c.body).outcome _ _ <;> simp [Outcome.bind, and_comm]

end Eval

open Eval

/-- **Statements run alike as a program and as the body of a function.**  As a program and as a
    block whose result is unwrapped they end together, with the same scopes and the same calls noted
    down, and with the same value, where null stands for none.  They meet a missing part together
    as well.  And calling a function that has them as its body is running them as a program in the
    scope of the call. -/
theorem program_agrees_with_body (ss : List Stmt) (tk : Token) (ctx : Context) (s : Store) :
    (∀ v t, (∃ r, (Node.program ⟨ss⟩).Evaluates ctx s r t ∧ r.getD .null = v) ↔
      ∃ r, (Node.stmt (.block (.mk tk ss))).Evaluates ctx s r t ∧ unwrap r = v) ∧
    ((∃ fuel, (Node.program ⟨ss⟩).evalWithin fuel ctx s = .fault) ↔
      ∃ fuel, (Node.stmt (.block (.mk tk ss))).evalWithin fuel ctx s = .fault) ∧
    ∀ c names vs, c.body = .mk tk ss → c.params = names.map some → names.length = vs.length →
      ctx.depth < ctx.limit →
      ∀ v t, Calls ctx (.fn c) vs s (some v) t ↔
        ∃ r, (Node.program ⟨ss⟩).Evaluates (bodyVisit ctx s c names vs).ctx
          (bodyVisit ctx s c names vs).store r t ∧ r.getD .null = v := by
  refine ⟨fun v t => ?_, ?_, fun c names vs hbody hparams hlength hdepth v t => ?_⟩
  · rw [exists_evaluates_program_iff tk]
    simp only [Node.evaluates_stmt_iff, outcome_blockStmt]
  · have hblock := ((Job.stmt (.block (.mk tk ss))).comesTo_outcome ctx s).eq_iff
      (show Outcome.fault ≠ Outcome.outOfFuel by simp)
    rw [outcome_blockStmt] at hblock
    exact (program_fault_iff tk).trans hblock
  · rw [exists_evaluates_program_iff tk, ← hbody, calls_body_iff hparams hlength hdepth]
    simp only [Option.some.injEq]

/-- The function `operacion(x) { devuelve x; 7 }`, made in the first scope. -/
def Closure.returnsArgument : Closure :=
  let x : Ident := .ofToken ⟨.ident, "x"⟩
  let body : Block := .mk ⟨.lbrace, "\x7b"⟩
    [.ret ⟨.kwReturn, "devuelve"⟩ (.ident x), .expr ⟨.int, "7"⟩ (.int ⟨.int, "7"⟩ (some 7))]
  ⟨⟨.kwFunction, "operacion"⟩, [some x], body, [0], 0⟩

/-- As a program the statements of the function end at the return, with the argument, and so does a
    call of it. -/
theorem program_agrees_with_returnsArgument :
    let c : Closure := .returnsArgument
    let ctx : Context := ⟨.root, 0, Eval.defaultLimit⟩
    ∃ tk ss, ∃ names : List Ident, c.body = .mk tk ss ∧ c.params = names.map some ∧
      names.length = [Value.int 5].length ∧ ctx.depth < ctx.limit ∧
      ∃ t, (Node.program ⟨ss⟩).Evaluates ⟨⟨1, [0]⟩, 1, ctx.limit⟩
          ⟨#[[], [("x", .int 5)]], [⟨c, 1⟩], 0⟩ (some (.int 5)) t ∧
        Calls ctx (.fn c) [.int 5] .initial (some (.int 5)) t := by
  intro c ctx
  refine ⟨_, _, [.ofToken ⟨.ident, "x"⟩], rfl, rfl, rfl, by decide, _, ⟨9, rfl⟩, ?_⟩
  have hcall := (program_agrees_with_body _ _ ctx .initial).2.2 c [.ofToken ⟨.ident, "x"⟩]
    [.int 5] rfl rfl rfl (by decide)
  exact (hcall _ _).2 ⟨some (.int 5), ⟨9, rfl⟩, rfl⟩

end Incognita
