import Incognita.Proofs.Frame
import Incognita.Proofs.Realm

namespace Incognita

/-!
# Eval — an evaluation writes the scope it runs in

Blocks and loops run in the scope they stand in, and every call in a new one.  So of the scopes that
were there, an evaluation writes the one it runs in and no other, and it never moves a scope into
another one.

* `Node.Binds` — the names that a tree binds where it is evaluated;
* `LinkedPath`, `Store.Linked` — the scopes around each scope are the ones that are given;
* `evaluation_writes_own_scope` — what an evaluation and a call leave as it was.
-/

/-- The tree binds the name in the scope it is evaluated in. -/
def Node.Binds (x : String) : Node → Prop
  | .program p => Stmt.BindsAny x p.stmts
  | .stmt st => st.Binds x
  | .expr e => e.Binds x

/-! ### The bindings -/

/-- A program binds what its statements bind, in the scope of its environment. -/
theorem Eval.program_grows (fuel : Nat) {ctx : Context} {ss : List Stmt} {last : Result}
    {s t : Store} {w : ScopeId → String → Prop} (hg : s.Grows w t)
    (hw : ∀ x, Stmt.BindsAny x ss → w ctx.env.scope x) :
    (program fuel ctx ss last t).Sat True fun _ u => s.Grows w u := by
  -- The store that it has grown to by now varies, the one that it grew from does not.
  induction fuel generalizing ss last t with
  | zero => simp only [program]; trivial
  | succ fuel ih =>
    cases ss with
    | nil => simp only [program]; exact hg
    | cons st ss =>
      simp only [program]
      have hstmt := Job.part_grows (Job.run_grows fuel) (.stmt st) hg fun x hx => hw x (.inl hx)
      refine hstmt.bind fun r u hu => ?_
      split
      · exact hu
      · exact hu
      · exact hu
      · exact ih hu fun x hx => hw x (.inr hx)

/-- The same for whole trees: nothing is bound but by the tree itself, in its own scope. -/
theorem Node.evalWithin_grows {n : Node} {fuel : Nat} {ctx : Context} {s : Store} :
    (n.evalWithin fuel ctx s).Sat True fun _ t =>
      s.Grows (fun i x => i = ctx.env.scope ∧ n.Binds x) t := by
  cases n with
  | program p => exact Eval.program_grows fuel (.refl _ s) fun x hx => ⟨rfl, hx⟩
  | stmt st => exact Eval.Job.run_grows fuel (.stmt st) ctx s
  | expr e => exact Eval.Job.run_grows fuel (.expr e) ctx s

/-! ### The scopes around a scope -/

/-- Every scope below `n` on the path is followed by the scopes around it, which `outer` tells. -/
def LinkedPath (outer : ScopeId → List ScopeId) (n : Nat) (path : List ScopeId) : Prop :=
  ∀ i rest, (i :: rest) <:+ path → i < n → rest = outer i

/-- All closures that are bound in the store and those among some values are made in linked
    paths. -/
structure Store.Linked (outer : ScopeId → List ScopeId) (n : Nat) (s : Store) (vs : List Value) :
    Prop where
  /-- The functions that are bound in the scopes. -/
  bound : ∀ {i x v c}, s.binding? i x = some v → v.closure? = some c → LinkedPath outer n c.scopes
  /-- The functions among the values. -/
  held : ∀ v ∈ vs, ∀ c, v.closure? = some c → LinkedPath outer n c.scopes

section

variable {outer : ScopeId → List ScopeId} {n : Nat} {s t : Store}

/-- A scope that is new may stand in front of any others. -/
theorem LinkedPath.cons {path : List ScopeId} {i : ScopeId} (hi : n ≤ i)
    (h : LinkedPath outer n path) : LinkedPath outer n (i :: path) := by
  intro j rest hsuffix hj
  rcases List.suffix_cons_iff.1 hsuffix with heq | hsuffix
  · obtain ⟨rfl, -⟩ := List.cons.inj heq
    exact absurd hj (Nat.not_lt.2 hi)
  · exact h j rest hsuffix hj

/-- The closures that are made in linked paths. -/
def Realm.linked (outer : ScopeId → List ScopeId) (n : Nat) : Realm where
  part _ := True
  scope _ := True
  path := LinkedPath outer n
  start := n
  mayFault := True
  scope_of_mem _ _ := trivial
  path_cons := LinkedPath.cons
  whole := .inl trivial

/-- Values whose closures are made in linked paths are of the realm. -/
theorem Store.Linked.hasValue {vs : List Value} (h : s.Linked outer n vs) {v : Value}
    (hv : v ∈ vs) : (Realm.linked outer n).HasValue v :=
  fun c hc => ⟨Expr.every_of_forall (fun _ => trivial) _, h.held v hv c hc⟩

/-- So is a store all of whose closures are. -/
theorem Store.Linked.hasStore {vs : List Value} (h : s.Linked outer n vs)
    (hn : n ≤ s.scopes.size) : (Realm.linked outer n).HasStore s where
  start := hn
  bound _ hb _ hc := ⟨Expr.every_of_forall (fun _ => trivial) _, h.bound hb hc⟩

/-- What is good in the realm is linked, the result included. -/
theorem Realm.linked_of_good {r : Result} (h : (Realm.linked outer n).Good r t) :
    t.Linked outer n r.toList :=
  ⟨fun hb hc => (h.1.bound trivial hb _ hc).2, fun v hv c hc => (h.2 v hv c hc).2⟩

end

theorem Node.every_of_forall {p : Node → Prop} (h : ∀ n, p n) (n : Node) : n.Every p := by
  cases n with
  | program q => exact Stmt.everyAll_of_forall h q.stmts
  | stmt st => exact st.every_of_forall h
  | expr e => exact e.every_of_forall h

/-! ### The frame of an evaluation -/

/-- **An evaluation writes the scope it runs in, and a call none that was there.**  After a tree
    has been evaluated, every scope that was there still binds what it bound, but for names that the
    tree itself binds, outside of functions, in the scope of the environment; these may have a
    new value, and no name has lost its value.  The scopes around each scope that was there are
    still the same: however they are given, if the environment and all closures agree with that
    before the evaluation, all closures agree with it afterwards.  A call changes no binding at
    all in the scopes that were there. -/
theorem evaluation_writes_own_scope {ctx : Context} {s t : Store} {r : Result} :
    (∀ n : Node, n.Evaluates ctx s r t →
      s.Grows (fun i x => i = ctx.env.scope ∧ n.Binds x) t ∧
      ∀ outer, LinkedPath outer s.scopes.size ctx.env.path → s.Linked outer s.scopes.size [] →
        t.Linked outer s.scopes.size r.toList) ∧
    ∀ (f : Value) (vs : List Value), Eval.Calls ctx f vs s r t →
      s.Grows (fun _ _ => False) t ∧
      ∀ outer, s.Linked outer s.scopes.size (f :: vs) → t.Linked outer s.scopes.size r.toList := by
  constructor
  · rintro n ⟨fuel, hf⟩
    -- The scopes that are old grow, and those that are new stay linked.
    have hgrows := @Node.evalWithin_grows n fuel ctx s
    rw [hf] at hgrows
    refine ⟨hgrows, fun outer hpath hlinked => ?_⟩
    have hwithin := @Node.evalWithin_within (.linked outer s.scopes.size) n fuel ctx s
      (n.every_of_forall fun _ => trivial) hpath (hlinked.hasStore (Nat.le_refl _))
    rw [hf] at hwithin
    exact Realm.linked_of_good hwithin
  · rintro f vs ⟨fuel, hf⟩
    refine ⟨Eval.call_grows hf, fun outer hlinked => ?_⟩
    -- A call is no tree, so the lemma about calls takes the place of the one about trees.
    cases fuel with
    | zero => simp [Eval.call] at hf
    | succ fuel =>
      have hvalue : ∀ v ∈ f :: vs, (Realm.linked outer s.scopes.size).HasValue v :=
        fun v hv => hlinked.hasValue hv
      obtain ⟨hfun, hargs⟩ := List.forall_mem_cons.1 hvalue
      have hwithin := @Eval.Job.call_within _ fuel ctx s
        (Eval.Job.run_within (.linked outer s.scopes.size) fuel) f vs hfun hargs
        (hlinked.hasStore (Nat.le_refl _))
      rw [hf] at hwithin
      exact Realm.linked_of_good hwithin

/-- A name bound to the value of a call that binds the same name in its own scope:
    `incognita x = operacion(y) { incognita x = y; x }(1)`. -/
def Node.shadows : Node :=
  let x : Ident := .ofToken ⟨.ident, "x"⟩
  let y : Ident := .ofToken ⟨.ident, "y"⟩
  let body : Block := .mk ⟨.lbrace, "\x7b"⟩
    [.bind ⟨.kwLet, "incognita"⟩ x (.ident y), .expr ⟨.ident, "x"⟩ (.ident x)]
  .stmt (.bind ⟨.kwLet, "incognita"⟩ x
    (.call ⟨.lparen, "("⟩ (.fn ⟨.kwFunction, "operacion"⟩ [y] body) [.int ⟨.int, "1"⟩ (some 1)]))

/-- A store whose first scope binds a name, with an empty scope inside that one. -/
def Store.fiveOutside : Store := ((Store.initial.set 0 "x" (.int 5)).alloc [0] []).2

/-- Evaluated in the inner scope, the call and the binding leave the outer one alone. -/
theorem fiveOutside_after_shadows : ∃ t,
    Node.shadows.Evaluates ⟨⟨1, [0]⟩, 0, 8⟩ .fiveOutside none t ∧
      t.binding? 1 "x" = some (.int 1) ∧ t.binding? 0 "x" = some (.int 5) := by
  have heval : ∃ t, Node.shadows.Evaluates ⟨⟨1, [0]⟩, 0, 8⟩ .fiveOutside none t ∧
      t.binding? 1 "x" = some (.int 1) := ⟨_, ⟨9, rfl⟩, rfl⟩
  obtain ⟨t, ht, hinner⟩ := heval
  have hgrows := (evaluation_writes_own_scope.1 Node.shadows ht).1
  have houter : t.binding? 0 "x" = Store.fiveOutside.binding? 0 "x" :=
    hgrows.same (by decide) fun h => absurd h.1 (by decide)
  exact ⟨t, ht, hinner, houter⟩

end Incognita
