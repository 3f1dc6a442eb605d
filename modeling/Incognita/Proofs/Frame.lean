import Incognita.Proofs.Jobs
import Incognita.Proofs.Scopes

namespace Incognita

/-!
# Eval — what an evaluation leaves alone

An evaluation binds names in the scope it runs in, and only names that its tree binds outside of
functions.  All other scopes that were there stay as they are.

* `Expr.Binds`, `Stmt.Binds`, `Block.Binds` — the names that a tree binds where it runs;
* `Store.Grows` — a store that differs from an earlier one in some bindings and in what was added;
* `Eval.Job.run_grows` — what an evaluation does to the store;
* `Eval.call_grows` — a call changes no scope that was there.
-/

/-! ### The names that a tree binds -/

mutual

/-- The expression binds the name in the scope it is evaluated in. -/
def Expr.Binds (x : String) : Expr → Prop
  | .missing | .ident _ | .int _ _ | .bool _ _ | .str _ _ | .fn _ _ _ => False
  | .unary _ _ e => e.Binds x
  | .binary _ l _ r => l.Binds x ∨ r.Binds x
  | .choice _ c a b => c.Binds x ∨ a.Binds x ∨ b.Binds x
  | .loop _ c b => c.Binds x ∨ b.Binds x
  | .call _ f as => f.Binds x ∨ Expr.BindsAny x as

/-- One of the expressions binds the name. -/
def Expr.BindsAny (x : String) : List Expr → Prop
  | [] => False
  | e :: es => e.Binds x ∨ Expr.BindsAny x es

/-- The statement binds the name in the scope it runs in. -/
def Stmt.Binds (x : String) : Stmt → Prop
  | .missing | .brk _ => False
  | .bind _ name e => (∃ y ∈ name, y.name = x) ∨ e.Binds x
  | .ret _ e | .expr _ e => e.Binds x
  | .block b => b.Binds x

/-- One of the statements binds the name. -/
def Stmt.BindsAny (x : String) : List Stmt → Prop
  | [] => False
  | s :: ss => s.Binds x ∨ Stmt.BindsAny x ss

/-- The block binds the name in the scope it runs in. -/
def Block.Binds (x : String) : Block → Prop
  | .missing => False
  | .mk _ ss => Stmt.BindsAny x ss

end

/-! ### How stores grow -/

/-- The second store has the scopes of the first one and maybe more.  They bind what they bound,
    but for the names of a scope that `written` tells. -/
structure Store.Grows (written : ScopeId → String → Prop) (s t : Store) : Prop where
  /-- No scope is given up. -/
  size : s.scopes.size ≤ t.scopes.size
  /-- No number of a function is given out twice. -/
  closures : s.closures ≤ t.closures
  /-- What is not written stays as it is. -/
  same : ∀ {i x}, i < s.scopes.size → ¬ written i x → t.binding? i x = s.binding? i x
  /-- What is written keeps having a value. -/
  kept : ∀ {i x}, (s.binding? i x).isSome → (t.binding? i x).isSome

namespace Store.Grows

variable {w w' : ScopeId → String → Prop} {s t u : Store}

/-- Nothing has to be written for a store to grow into itself. -/
theorem refl (w : ScopeId → String → Prop) (s : Store) : s.Grows w s :=
  ⟨Nat.le_refl _, Nat.le_refl _, fun _ _ => rfl, id⟩

/-- What two evaluations write one after the other.  The second one may also write to the scopes
    that the first one has made, which are of no interest here. -/
theorem trans (h : s.Grows w t) (h' : t.Grows w' u)
    (hw : ∀ {i x}, i < s.scopes.size → w' i x → w i x) : s.Grows w u where
  size := Nat.le_trans h.size h'.size
  closures := Nat.le_trans h.closures h'.closures
  same := by
    intro i x hi hn
    -- A binding that neither of the two wrote is still what it was.
    rw [h'.same (Nat.lt_of_lt_of_le hi h.size) (fun hx => hn (hw hi hx)), h.same hi hn]
  kept := fun hb => h'.kept (h.kept hb)

/-- Binding a name in a scope writes that name there, and takes no name away. -/
theorem set (s : Store) {i : ScopeId} {x : String} (v : Value) (hw : w i x) :
    s.Grows w (s.set i x v) where
  size := Nat.le_of_eq size_set.symm
  closures := Nat.le_refl _
  same := by
    intro j y _ hn
    rw [binding?_set, if_neg]
    rintro ⟨rfl, rfl, -⟩
    exact hn hw
  kept := by
    intro j y hb
    rw [binding?_set]
    split
    · rfl
    · exact hb

/-- A new scope is no scope of the store before, so whatever it binds, nothing is written. -/
theorem alloc (s : Store) (outer : List ScopeId) (b : Bindings) :
    s.Grows w (s.alloc outer b).2 where
  size := by rw [size_alloc]; exact Nat.le_succ _
  closures := Nat.le_refl _
  same := by
    intro i x hi _
    rw [binding?_alloc, if_neg (Nat.ne_of_lt hi)]
  kept := by
    intro i x hb
    rw [binding?_alloc, if_neg]
    · exact hb
    · rintro rfl
      simp [binding?] at hb

/-- A new function only makes the count of functions go up. -/
theorem newClosure (s : Store) (token : Token) (params : List (Option Ident)) (body : Block)
    (path : List ScopeId) : s.Grows w (s.newClosure token params body path).2 :=
  ⟨Nat.le_refl _, Nat.le_succ _, fun _ _ => rfl, id⟩

/-- A call starts in a new scope. -/
theorem enter (s : Store) (c : Closure) (b : Bindings) (n : Nat) :
    s.Grows w ((s.alloc c.scopes b).2.logCall c n) := by
  have hg : s.Grows w (s.alloc c.scopes b).2 := alloc s c.scopes b
  exact ⟨hg.size, hg.closures, hg.same, hg.kept⟩

end Store.Grows

namespace Eval

/-! ### Evaluations -/

namespace Job

/-- The evaluation binds the name in the scope it runs in. -/
def Binds (x : String) : Job → Prop
  | expr e | logical e => e.Binds x
  | args es => Expr.BindsAny x es
  | call _ _ => False
  | loop c b => c.Binds x ∨ b.Binds x
  | block b => b.Binds x
  | stmts ss _ => Stmt.BindsAny x ss
  | stmt st => st.Binds x

/-- The bindings that the evaluation may write. -/
def Writes (ctx : Context) (j : Job) (i : ScopeId) (x : String) : Prop :=
  i = ctx.env.scope ∧ j.Binds x

/-- Every evaluation writes only what it may. -/
def AllGrow (fuel : Nat) : Prop :=
  ∀ (j : Job) (ctx : Context) (s : Store),
    (j.run fuel ctx s).Sat True fun _ t => s.Grows (j.Writes ctx) t

variable {fuel : Nat} {ctx : Context} {w : ScopeId → String → Prop} {s t : Store}

/-- An evaluation that is part of another one. -/
theorem part_grows (ih : AllGrow fuel) (j : Job) (hg : s.Grows w t)
    (hw : ∀ x, j.Binds x → w ctx.env.scope x) :
    (j.run fuel ctx t).Sat True fun _ u => s.Grows w u := by
  refine (ih j ctx t).mono fun _ u hu => hg.trans hu ?_
  rintro i x - ⟨rfl, hx⟩
  exact hw x hx

/-- What grows up to an operand and from its value on grows up to the end. -/
theorem operand_grows {o : Outcome Incognita.Result}
    {k : Value → Store → Outcome Incognita.Result} (h : o.Sat True fun _ t => s.Grows w t)
    (hk : ∀ v t, s.Grows w t → (k v t).Sat True fun _ u => s.Grows w u) :
    (o.operand k).Sat True fun _ u => s.Grows w u :=
  h.operand (fun _ _ hg _ => hg) fun _ t hg _ => hk _ t hg

/-- The parts of an expression bind names in the same scope, so what they may write is among what
    the expression may write.  A call is the exception: it may write nothing. -/
theorem expr_grows (ih : AllGrow fuel) (e : Expr) :
    (Eval.expr (fuel + 1) ctx e s).Sat True fun _ t => s.Grows ((expr e).Writes ctx) t := by
  have hs : s.Grows ((expr e).Writes ctx) s := .refl _ s
  cases e with
  | missing | bool | str => simp only [Eval.expr]; exact hs
  | ident x => rw [expr_ident]; exact hs
  | int t v => cases v <;> simp only [Eval.expr] <;> exact hs
  | unary t op e =>
    simp only [Eval.expr]
    exact operand_grows (part_grows ih (.expr e) hs fun x hx => ⟨rfl, hx⟩) fun v t ht => ht
  | binary t l op r =>
    have hr : ∀ x, r.Binds x → (expr (.binary t l op r)).Writes ctx ctx.env.scope x :=
      fun x hx => ⟨rfl, .inr hx⟩
    simp only [Eval.expr]
    refine operand_grows (part_grows ih (.expr l) hs fun x hx => ⟨rfl, .inl hx⟩) fun v t ht => ?_
    -- The right operand is evaluated in one of two ways, or not at all.
    have hlogical := part_grows ih (.logical r) ht hr
    split
    · split
      · exact hlogical
      · exact ht
    · split
      · split
        · exact ht
        · exact hlogical
      · exact operand_grows (part_grows ih (.expr r) ht hr) fun w t ht => ht
  | choice t c a b =>
    rw [expr_choice]
    refine operand_grows (part_grows ih (.expr c) hs fun x hx => ⟨rfl, .inl hx⟩) fun v t ht => ?_
    split
    · exact part_grows ih (.block a) ht fun x hx => ⟨rfl, .inr (.inl hx)⟩
    · split
      · exact ht
      · exact part_grows ih (.block b) ht fun x hx => ⟨rfl, .inr (.inr hx)⟩
  | loop t c b =>
    simp only [Eval.expr]
    exact part_grows ih (.loop c b) hs fun x hx => ⟨rfl, hx⟩
  | fn t ps b => simp only [Eval.expr]; exact .newClosure s t ps b ctx.env.path
  | call t f as =>
    simp only [Eval.expr]
    refine operand_grows (part_grows ih (.expr f) hs fun x hx => ⟨rfl, .inl hx⟩) fun v t ht => ?_
    refine (part_grows ih (.args as) ht fun x hx => ⟨rfl, .inr hx⟩).bind fun vs t ht => ?_
    cases vs with
    | ok vs => exact part_grows ih (.call v vs) ht fun x hx => hx.elim
    | error signal => exact ht

/-- Arguments bind the names that one of them binds. -/
theorem args_grows (ih : AllGrow fuel) (es : List Expr) :
    (Eval.args (fuel + 1) ctx es s).Sat True fun _ t => s.Grows ((args es).Writes ctx) t := by
  cases es with
  | nil => simp only [Eval.args]; exact .refl _ s
  | cons e es =>
    have hs : s.Grows ((args (e :: es)).Writes ctx) s := .refl _ s
    simp only [Eval.args]
    refine (part_grows ih (.expr e) hs fun x hx => ⟨rfl, .inl hx⟩).bind fun r t ht => ?_
    split
    · exact ht
    · exact (part_grows ih (.args es) ht fun x hx => ⟨rfl, .inr hx⟩).bind fun vs t ht => ht

/-- A call writes in a scope of its own, behind those that were there. -/
theorem call_grows (ih : AllGrow fuel) (f : Value) (vs : List Value) :
    (Eval.call (fuel + 1) ctx f vs s).Sat True fun _ t => s.Grows (fun _ _ => False) t := by
  cases f with
  | fn c =>
    simp only [Eval.call]
    split
    · exact .refl _ s
    · split
      · exact .refl _ s
      · cases Ident.present? c.params with
        | none => trivial
        | some names =>
          refine (ih (.block c.body) _ _).bind fun r t ht => ?_
          refine (Store.Grows.enter s c (bindParams names vs) (ctx.depth + 1)).trans ht ?_
          -- The body writes in the new scope, which was not there before.
          rintro i x hi ⟨rfl, -⟩
          exact absurd hi (Nat.lt_irrefl _)
  | _ => simp only [Eval.call]; exact .refl _ s

/-- A loop binds the names that its condition or its body binds, however often it goes round. -/
theorem loop_grows (ih : AllGrow fuel) (c : Expr) (b : Block) :
    (Eval.loop (fuel + 1) ctx c b s).Sat True fun _ t => s.Grows ((loop c b).Writes ctx) t := by
  simp only [Eval.loop]
  refine operand_grows (part_grows ih (.expr c) (.refl _ s) fun x hx => ⟨rfl, .inl hx⟩)
    fun v t ht => ?_
  split
  · refine (part_grows ih (.block b) ht fun x hx => ⟨rfl, .inr hx⟩).bind fun r t ht => ?_
    split
    · exact ht
    · exact ht
    · exact ht
    · exact part_grows ih (.loop c b) ht fun x hx => ⟨rfl, hx⟩
  · exact ht

/-- Statements bind the names that one of them binds, whichever of them are run. -/
theorem stmts_grows (ih : AllGrow fuel) (ss : List Stmt) (last : Incognita.Result) :
    (Eval.stmts (fuel + 1) ctx ss last s).Sat True fun _ t =>
      s.Grows ((stmts ss last).Writes ctx) t := by
  cases ss with
  | nil => simp only [Eval.stmts]; exact .refl _ s
  | cons st ss =>
    have hs : s.Grows ((stmts (st :: ss) last).Writes ctx) s := .refl _ s
    simp only [Eval.stmts]
    refine (part_grows ih (.stmt st) hs fun x hx => ⟨rfl, .inl hx⟩).bind fun r t ht => ?_
    split
    · exact ht
    · exact part_grows ih (.stmts ss r) ht fun x hx => ⟨rfl, .inr hx⟩

/-- A binding writes its own name, besides the names that its expression binds. -/
theorem stmt_grows (ih : AllGrow fuel) (st : Stmt) :
    (Eval.stmt (fuel + 1) ctx st s).Sat True fun _ t => s.Grows ((stmt st).Writes ctx) t := by
  cases st with
  | missing | brk => simp only [Eval.stmt]; exact .refl _ s
  | bind tok x e =>
    simp only [Eval.stmt]
    refine operand_grows (part_grows ih (.expr e) (.refl _ s) fun x hx => ⟨rfl, .inr hx⟩)
      fun v t ht => ?_
    cases x with
    | none => trivial
    | some x =>
      -- This is the one place where a scope that was there is written.
      exact ht.trans (Store.Grows.set t v ⟨rfl, .inl ⟨x, rfl, rfl⟩⟩) fun _ hw => hw
  | ret tok e =>
    by_cases he : e = .missing
    · simp only [he, Eval.stmt]
      exact .refl _ s
    · rw [stmt_ret he]
      exact operand_grows (part_grows ih (.expr e) (.refl _ s) fun x hx => ⟨rfl, hx⟩)
        fun v t ht => ht
  | expr tok e =>
    simp only [Eval.stmt]
    exact part_grows ih (.expr e) (.refl _ s) fun x hx => ⟨rfl, hx⟩
  | block b =>
    simp only [Eval.stmt]
    exact part_grows ih (.block b) (.refl _ s) fun x hx => ⟨rfl, hx⟩

/-- **An evaluation writes only the scope it runs in**, and there only the names its tree binds.  By
    induction on the bound: a part may write what the whole may, and a call starts a scope of its
    own, in which writing is free. -/
theorem run_grows (fuel : Nat) : AllGrow fuel := by
  induction fuel with
  | zero =>
    intro j ctx s
    rw [run_zero]
    trivial
  | succ fuel ih =>
    intro j ctx s
    cases j with
    | expr e => exact expr_grows ih e
    | logical e =>
      simp only [run, Eval.logical]
      exact operand_grows (part_grows ih (.expr e) (.refl _ s) fun x hx => ⟨rfl, hx⟩)
        fun v t ht => ht
    | args es => exact args_grows ih es
    | call f vs =>
      -- The body of a function runs in a scope of its own, so a call writes to none of the old
      -- ones.
      refine (call_grows ih f vs).mono fun _ t ht => ?_
      exact (Store.Grows.refl _ s).trans ht fun _ hw => hw.elim
    | loop c b => exact loop_grows ih c b
    | block b =>
      cases b with
      | missing => simp only [run, Eval.block]; trivial
      | mk tok ss =>
        simp only [run, Eval.block]
        exact part_grows ih (.stmts ss none) (.refl _ s) fun x hx => ⟨rfl, hx⟩
    | stmts ss last => exact stmts_grows ih ss last
    | stmt st => exact stmt_grows ih st

end Job

/-- **A call changes no scope that was there.**  Its body writes the scope that is made for it,
    which is new. -/
theorem call_grows {fuel : Nat} {ctx : Context} {f : Value} {vs : List Value} {s t : Store}
    {r : Result} (h : call fuel ctx f vs s = .done r t) : s.Grows (fun _ _ => False) t := by
  cases fuel with
  | zero => simp [call] at h
  | succ fuel =>
    have hg := @Job.call_grows fuel ctx s (Job.run_grows fuel) f vs
    rwa [h] at hg

end Eval

end Incognita
