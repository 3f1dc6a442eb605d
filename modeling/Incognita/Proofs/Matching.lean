import Mathlib.Data.List.Forall2
import Incognita.Proofs.Jobs
import Incognita.Proofs.Operators
import Incognita.Proofs.Scopes

namespace Incognita

/-!
# Eval — two runs in lockstep

Two evaluations of one tree, in two stores whose scopes and closures are matched with each other.
Nothing of a scope or a closure shows but what is bound there, and whether two closures are the
same one, so the evaluations go through the same steps.

* `Matching` — which scopes and which closures of two stores belong together;
* `Closure.Matches`, `Value.Matches` — values that are alike up to a matching;
* `Store.Matches` — matched scopes bind matched values.  What the stores will get next is
  matched from the start, so a matching need not grow while the evaluations run;
* `Eval.Lockstep` — evaluations in matched stores end alike;
* `Eval.lockstep` — they do, under every bound.
-/

/-! ### Values -/

/-- Which scopes and which closures of two stores belong together. -/
structure Matching where
  /-- Which scopes of the two stores belong together. -/
  scope : ScopeId → ScopeId → Prop
  /-- Which functions do, by their numbers. -/
  closure : Nat → Nat → Prop

/-- Each belongs together with at most one. -/
structure Matching.OneToOne (m : Matching) : Prop where
  /-- No scope belongs to two. -/
  scope : ∀ {i j i' j'}, m.scope i j → m.scope i' j' → (i = i' ↔ j = j')
  closure : ∀ {a b a' b'}, m.closure a b → m.closure a' b' → (a = a' ↔ b = b')

/-- The closures come from one function literal, in matched scopes. -/
structure Closure.Matches (m : Matching) (c d : Closure) : Prop where
  /-- They were written in the same place. -/
  token : c.token = d.token
  params : c.params = d.params
  body : c.body = d.body
  /-- They were made in environments that match, scope by scope. -/
  scopes : List.Forall₂ m.scope c.scopes d.scopes
  /-- Their numbers match. -/
  id : m.closure c.id d.id

/-- The values are the same, or matched closures. -/
inductive Value.Matches (m : Matching) : Value → Value → Prop
  | int (n : Int64) : Matches m (.int n) (.int n)
  | bool (b : Bool) : Matches m (.bool b) (.bool b)
  | str (s : String) : Matches m (.str s) (.str s)
  | null : Matches m .null .null
  | fn {c d : Closure} (h : c.Matches m d) : Matches m (.fn c) (.fn d)
  | ret {v w : Value} (h : Matches m v w) : Matches m (.ret v) (.ret w)
  | err (e : RuntimeError) : Matches m (.err e) (.err e)
  | brk : Matches m .brk .brk

namespace Value.Matches

variable {m : Matching} {v w v' w' : Value}

/-- Values that match are of the same kind. -/
theorem kind_eq (h : v.Matches m w) : v.kind = w.kind := by cases h <;> rfl

/-- So both are signals, or neither is. -/
theorem isSignal_eq (h : v.Matches m w) : v.isSignal = w.isSignal := by cases h <;> rfl

/-- They are taken for the same truth value, which decides every condition. -/
theorem truthy_eq (h : v.Matches m w) : v.truthy = w.truthy := by cases h <;> rfl

/-- They are shown alike: of a closure only what `Closure.signature` takes is shown, and not its
    number. -/
theorem inspect_eq (h : v.Matches m w) : v.inspect = w.inspect := by
  induction h with
  | fn h => simp only [inspect, Closure.signature, h.token, h.params]
  | ret _ ih => simpa only [inspect] using ih
  | _ => rfl

/-- Functions are compared by identity, which a matching keeps. -/
theorem same_eq (hm : m.OneToOne) (h : v.Matches m w) (h' : v'.Matches m w') :
    v.same v' = w.same w' := by
  cases h with
  | fn h =>
    cases h' with
    | fn h' =>
      simp only [same]
      rw [Bool.eq_iff_iff, beq_iff_eq, beq_iff_eq]
      exact hm.closure h.id h'.id
    | _ => rfl
  | _ => cases h' <;> rfl

/-- Operators give matching values for matching operands. -/
theorem unary (h : v.Matches m w) (op : String) : (v.unary op).Matches m (w.unary op) := by
  rw [Value.unary, Value.unary, ← h.kind_eq]
  split
  · cases h with
    | bool b => cases b <;> exact .bool _
    | _ => exact .bool _
  · split
    · cases h with
      | int n => exact .int _
      | _ => exact .err _
    · exact .err _

/-- What an operator has computed is matched with itself. -/
theorem refl_of_computed (h : v.Computed) : v.Matches m v := by
  cases h with
  | int n => exact .int n
  | bool b => exact .bool b
  | str s => exact .str s
  | err _ => exact .err _

/-- The operators on values that are not both integers or both strings. -/
theorem binary_other (hm : m.OneToOne) (h : v.Matches m w) (h' : v'.Matches m w') (op : String) :
    Matches m
      (if op = "==" then .bool (v.same v') else if op = "!=" then .bool (!v.same v')
        else if v.kind = v'.kind then .err (.unknownBinary v.kind op v'.kind)
        else .err (.typeMismatch v.kind op v'.kind))
      (if op = "==" then .bool (w.same w') else if op = "!=" then .bool (!w.same w')
        else if w.kind = w'.kind then .err (.unknownBinary w.kind op w'.kind)
        else .err (.typeMismatch w.kind op w'.kind)) := by
  rw [h.kind_eq, h'.kind_eq, same_eq hm h h']
  repeat' split
  all_goals first | exact .bool _ | exact .err _

/-- So do those with two operands.  A comparison of two closures looks at their numbers, which are
    matched one to one. -/
theorem binary (hm : m.OneToOne) (h : v.Matches m w) (h' : v'.Matches m w') (op : String) :
    (Value.binary op v v').Matches m (Value.binary op w w') := by
  -- Only two integers or two strings are computed with.
  have hother := binary_other hm h h' op
  cases h with
  | int a =>
    cases h' with
    | int b => exact refl_of_computed (computed_binaryInt op a b)
    | _ => exact hother
  | str a =>
    cases h' with
    | str b => exact refl_of_computed (computed_binaryStr op a b)
    | _ => exact hother
  | _ => exact hother

end Value.Matches

/-! ### Stores -/

/-- The calls are of matched closures, at one depth. -/
structure Call.Matches (m : Matching) (c d : Call) : Prop where
  callee : c.callee.Matches m d.callee
  depth : c.depth = d.depth

/-- Matched scopes bind matched values, what comes next is matched, and the calls that were made
    on top of the earlier ones are alike. -/
structure Store.Matches (m : Matching) (earlier earlier' : List Call) (s t : Store) : Prop where
  /-- Scopes that match bind the same names to values that match. -/
  binding : ∀ {i j}, m.scope i j → ∀ x,
    Option.Rel (Value.Matches m) (s.binding? i x) (t.binding? j x)
  /-- A scope is there if the one that it matches is. -/
  bound : ∀ {i j}, m.scope i j → (i < s.scopes.size ↔ j < t.scopes.size)
  /-- Scopes that are still to come match in the order in which they will. -/
  nextScope : ∀ n, m.scope (s.scopes.size + n) (t.scopes.size + n)
  /-- So do functions. -/
  nextClosure : ∀ n, m.closure (s.closures + n) (t.closures + n)
  /-- What has been noted down since matches, call by call. -/
  calls : ∃ new new', s.calls = new ++ earlier ∧ t.calls = new' ++ earlier' ∧
    List.Forall₂ (Call.Matches m) new new'

/-- Two choices by conditions that say the same. -/
theorem rel_ite {m : Matching} {p q : Prop} [Decidable p] [Decidable q] {a b a' b' : Option Value}
    (hpq : p ↔ q) (ha : Option.Rel (Value.Matches m) a a')
    (hb : Option.Rel (Value.Matches m) b b') :
    Option.Rel (Value.Matches m) (if p then a else b) (if q then a' else b') := by
  by_cases hp : p
  · rwa [if_pos hp, if_pos (hpq.1 hp)]
  · rwa [if_neg hp, if_neg (fun hq => hp (hpq.2 hq))]

namespace Store.Matches

variable {m : Matching} {earlier earlier' : List Call} {s t : Store} {v w : Value}

/-- A name has matching values along matching scopes, or a value in neither store. -/
theorem get? (h : s.Matches m earlier earlier' t) {path path' : List ScopeId}
    (hp : List.Forall₂ m.scope path path') (x : String) :
    Option.Rel (Value.Matches m) (s.get? path x) (t.get? path' x) := by
  induction hp with
  | nil => exact .none
  | cons hij _ ih =>
    rw [get?_cons, get?_cons]
    have hb := h.binding hij x
    -- The innermost scope binds the name in both stores or in neither, and then the others decide.
    revert hb
    generalize s.binding? _ x = a
    generalize t.binding? _ x = b
    intro hb
    cases hb with
    | some hv => exact .some hv
    | none => simpa only [Option.none_or] using ih

/-- Binding matching values in matching scopes leaves matching stores. -/
theorem set (hm : m.OneToOne) (h : s.Matches m earlier earlier' t) {i j : ScopeId}
    (hij : m.scope i j) (x : String) (hv : v.Matches m w) :
    (s.set i x v).Matches m earlier earlier' (t.set j x w) where
  binding := by
    intro i' j' hij' y
    -- Matched scopes are the ones that are written, or neither of them is.
    have hiff : (i' = i ∧ y = x ∧ i < s.scopes.size) ↔ (j' = j ∧ y = x ∧ j < t.scopes.size) := by
      rw [hm.scope hij' hij, h.bound hij]
    rw [binding?_set, binding?_set]
    exact rel_ite hiff (.some hv) (h.binding hij' y)
  bound := by
    intro i' j' hij'
    rw [size_set, size_set]
    exact h.bound hij'
  nextScope := by
    intro n
    rw [size_set, size_set]
    exact h.nextScope n
  nextClosure := h.nextClosure
  calls := h.calls

/-- New scopes with matching bindings come next in both stores, where `nextScope` has them matched
    already. -/
theorem alloc (hm : m.OneToOne) (h : s.Matches m earlier earlier' t) (outer outer' : List ScopeId)
    {b b' : Bindings}
    (hb : ∀ x, Option.Rel (Value.Matches m) (b.lookup x) (b'.lookup x)) :
    (s.alloc outer b).2.Matches m earlier earlier' (t.alloc outer' b').2 where
  binding := by
    intro i j hij y
    rw [binding?_alloc, binding?_alloc]
    exact rel_ite (hm.scope hij (h.nextScope 0)) (hb y) (h.binding hij y)
  bound := by
    intro i j hij
    -- Only the scope that comes next is new, and it is matched with the one that comes next.
    have hnew : i = s.scopes.size ↔ j = t.scopes.size := hm.scope hij (h.nextScope 0)
    have hold := h.bound hij
    rw [size_alloc, size_alloc, Nat.lt_succ_iff_lt_or_eq, Nat.lt_succ_iff_lt_or_eq, hold, hnew]
  nextScope := by
    intro n
    rw [size_alloc, size_alloc, Nat.add_right_comm, Nat.add_right_comm t.scopes.size]
    exact h.nextScope (n + 1)
  nextClosure := h.nextClosure
  calls := h.calls

/-- Calls of matching closures at one depth are noted down alike. -/
theorem logCall (h : s.Matches m earlier earlier' t) {c d : Closure} (hc : c.Matches m d)
    (n : Nat) : (s.logCall c n).Matches m earlier earlier' (t.logCall d n) where
  binding := h.binding
  bound := h.bound
  nextScope := h.nextScope
  nextClosure := h.nextClosure
  calls := by
    obtain ⟨new, new', hs, ht, hn⟩ := h.calls
    refine ⟨⟨c, n⟩ :: new, ⟨d, n⟩ :: new', ?_, ?_, .cons ⟨hc, rfl⟩ hn⟩
    · rw [Store.logCall, hs]
      rfl
    · rw [Store.logCall, ht]
      rfl

/-- The closures that come next in both stores match. -/
theorem newClosure (h : s.Matches m earlier earlier' t) (token : Token)
    (params : List (Option Ident)) (body : Block) {path path' : List ScopeId}
    (hp : List.Forall₂ m.scope path path') :
    (s.newClosure token params body path).1.Matches m
        (t.newClosure token params body path').1 ∧
      (s.newClosure token params body path).2.Matches m earlier earlier'
        (t.newClosure token params body path').2 := by
  refine ⟨⟨rfl, rfl, rfl, hp, h.nextClosure 0⟩, h.binding, h.bound, h.nextScope, ?_, h.calls⟩
  intro n
  show m.closure (s.closures + 1 + n) (t.closures + 1 + n)
  rw [Nat.add_right_comm, Nat.add_right_comm t.closures]
  exact h.nextClosure (n + 1)

end Store.Matches

/-- One name bound to matched values. -/
theorem Bindings.set_matches {m : Matching} {b b' : Bindings} {v v' : Value} (x : String)
    (hv : v.Matches m v')
    (h : ∀ y, Option.Rel (Value.Matches m) (b.lookup y) (b'.lookup y)) (y : String) :
    Option.Rel (Value.Matches m) ((b.set x v).lookup y) ((b'.set x v').lookup y) := by
  by_cases hy : y = x
  · rw [hy, lookup_set_self, lookup_set_self]
    exact .some hv
  · rw [lookup_set_of_ne hy, lookup_set_of_ne hy]
    exact h y

/-- Matched arguments give matched bindings. -/
theorem bindParams_matches {m : Matching} (params : List Ident) {vs vs' : List Value}
    (h : List.Forall₂ (Value.Matches m) vs vs') (x : String) :
    Option.Rel (Value.Matches m) ((bindParams params vs).lookup x)
      ((bindParams params vs').lookup x) := by
  -- The arguments are bound one by one, on top of what is bound already.
  have hfold : ∀ (params : List Ident) (vs vs' : List Value) (b b' : Bindings),
      List.Forall₂ (Value.Matches m) vs vs' →
      (∀ y, Option.Rel (Value.Matches m) (b.lookup y) (b'.lookup y)) → ∀ y,
      Option.Rel (Value.Matches m)
        (((params.zip vs).foldl (fun b p => b.set p.1.name p.2) b).lookup y)
        (((params.zip vs').foldl (fun b p => b.set p.1.name p.2) b').lookup y) := by
    intro params
    induction params with
    | nil => exact fun _ _ _ _ _ hb y => hb y
    | cons p params ih =>
      intro vs vs' b b' hvs hb y
      cases hvs with
      | nil => exact hb y
      | cons hv hvs => exact ih _ _ _ _ hvs (Bindings.set_matches p.name hv hb) y
  exact hfold params vs vs' [] [] h (fun _ => .none) x

/-! ### Evaluations -/

/-- The evaluations take place in matched scopes, at one depth and under one limit. -/
structure Context.Matches (m : Matching) (ctx ctx' : Context) : Prop where
  /-- The environments match, scope by scope. -/
  path : List.Forall₂ m.scope ctx.env.path ctx'.env.path
  depth : ctx.depth = ctx'.depth
  limit : ctx.limit = ctx'.limit

/-- The innermost scopes of matching contexts match. -/
theorem Context.Matches.scope {m : Matching} {ctx ctx' : Context} (h : ctx.Matches m ctx') :
    m.scope ctx.env.scope ctx'.env.scope :=
  (List.forall₂_cons.1 h.path).1

namespace Eval

variable (m : Matching) (earlier earlier' : List Call)

/-- Matched results in matched stores. -/
def Ends (r : Result) (s : Store) (r' : Result) (t : Store) : Prop :=
  Option.Rel (Value.Matches m) r r' ∧ s.Matches m earlier earlier' t

/-- Matched arguments, or matched signals among them. -/
inductive ArgsMatch : Except Value (List Value) → Except Value (List Value) → Prop
  | ok {vs vs'} (h : List.Forall₂ (Value.Matches m) vs vs') : ArgsMatch (.ok vs) (.ok vs')
  | error {v v'} (h : v.Matches m v') : ArgsMatch (.error v) (.error v')

/-- Evaluations of one tree that start matched end alike. -/
structure Lockstep (fuel : Nat) : Prop where
  expr : ∀ {ctx ctx' s t} e, ctx.Matches m ctx' → s.Matches m earlier earlier' t →
    (expr fuel ctx e s).Rel False (Ends m earlier earlier') (expr fuel ctx' e t)
  logical : ∀ {ctx ctx' s t} e, ctx.Matches m ctx' → s.Matches m earlier earlier' t →
    (logical fuel ctx e s).Rel False (Ends m earlier earlier') (logical fuel ctx' e t)
  args : ∀ {ctx ctx' s t} es, ctx.Matches m ctx' → s.Matches m earlier earlier' t →
    (args fuel ctx es s).Rel False
      (fun vs s vs' t => ArgsMatch m vs vs' ∧ s.Matches m earlier earlier' t) (args fuel ctx' es t)
  call : ∀ {ctx ctx' s t f f' vs vs'}, ctx.depth = ctx'.depth → ctx.limit = ctx'.limit →
    f.Matches m f' → List.Forall₂ (Value.Matches m) vs vs' → s.Matches m earlier earlier' t →
    (call fuel ctx f vs s).Rel False (Ends m earlier earlier') (call fuel ctx' f' vs' t)
  loop : ∀ {ctx ctx' s t} c b, ctx.Matches m ctx' → s.Matches m earlier earlier' t →
    (loop fuel ctx c b s).Rel False (Ends m earlier earlier') (loop fuel ctx' c b t)
  block : ∀ {ctx ctx' s t} b, ctx.Matches m ctx' → s.Matches m earlier earlier' t →
    (block fuel ctx b s).Rel False (Ends m earlier earlier') (block fuel ctx' b t)
  stmts : ∀ {ctx ctx' s t last last'} ss, ctx.Matches m ctx' →
    Option.Rel (Value.Matches m) last last' → s.Matches m earlier earlier' t →
    (stmts fuel ctx ss last s).Rel False (Ends m earlier earlier') (stmts fuel ctx' ss last' t)
  stmt : ∀ {ctx ctx' s t} st, ctx.Matches m ctx' → s.Matches m earlier earlier' t →
    (stmt fuel ctx st s).Rel False (Ends m earlier earlier') (stmt fuel ctx' st t)

namespace Lockstep

variable {m earlier earlier'}

/-- Where a result is missing, both are taken for null. -/
theorem getD_matches {r r' : Result} (h : Option.Rel (Value.Matches m) r r') :
    (r.getD .null).Matches m (r'.getD .null) := by
  cases h with
  | some hv => exact hv
  | none => exact .null

/-- Results that match are both signals, or neither is. -/
theorem isSignal_eq {r r' : Result} (h : Option.Rel (Value.Matches m) r r') :
    Result.isSignal r = Result.isSignal r' := by
  cases h with
  | some hv => exact hv.isSignal_eq
  | none => rfl

/-- What the body of a function comes to is unwrapped alike. -/
theorem unwrap_matches {r r' : Result} (h : Option.Rel (Value.Matches m) r r') :
    (unwrap r).Matches m (unwrap r') := by
  cases h with
  | none => exact .null
  | some hv =>
    cases hv with
    | ret h => exact h
    -- A break at the end of a body is an error of its own.
    | brk => exact .err _
    | int n => exact .int n
    | bool b => exact .bool b
    | str v => exact .str v
    | null => exact .null
    | fn h => exact .fn h
    | err e => exact .err e

variable {fuel : Nat} {ctx ctx' : Context} {s t : Store} {v v' : Value}

/-- Evaluations that end with matching values in matching stores end alike. -/
theorem done (hv : v.Matches m v') (hs : s.Matches m earlier earlier' t) :
    (Outcome.done (some v) s).Rel False (Ends m earlier earlier') (Outcome.done (some v') t) :=
  ⟨.some hv, hs⟩

/-- What follows matched operands. -/
theorem operand {o o' : Outcome Result} {k k' : Value → Store → Outcome Result}
    (h : o.Rel False (Ends m earlier earlier') o')
    (hk : ∀ v v' s t, v.Matches m v' → s.Matches m earlier earlier' t →
      (k v s).Rel False (Ends m earlier earlier') (k' v' t)) :
    (o.operand k).Rel False (Ends m earlier earlier') (o'.operand k') := by
  refine h.operand ?_ ?_ ?_
  · exact fun r s r' t hr => (getD_matches hr.1).isSignal_eq
  · exact fun r s r' t hr => ⟨.some (getD_matches hr.1), hr.2⟩
  · exact fun r s r' t hr => hk _ _ s t (getD_matches hr.1) hr.2

/-- The parts of an expression are evaluated in lockstep, and where it branches the operands so far
    are taken for the same truth values. -/
theorem expr_succ (hm : m.OneToOne) (ih : Lockstep m earlier earlier' fuel) (e : Expr)
    (hc : ctx.Matches m ctx') (hs : s.Matches m earlier earlier' t) :
    (Eval.expr (fuel + 1) ctx e s).Rel False (Ends m earlier earlier')
      (Eval.expr (fuel + 1) ctx' e t) := by
  cases e with
  | missing => simp only [Eval.expr]; exact done (.err _) hs
  | ident x =>
    rw [expr_ident, expr_ident]
    refine done ?_ hs
    have hget := hs.get? hc.path x.name
    revert hget
    generalize s.get? _ x.name = a
    generalize t.get? _ x.name = b
    intro hget
    cases hget with
    | some hv => exact hv
    | none => exact .err _
  | int tok n =>
    cases n with
    | none => simp only [Eval.expr]; exact done (.err _) hs
    | some n => simp only [Eval.expr]; exact done (.int n) hs
  | bool tok b => simp only [Eval.expr]; exact done (.bool b) hs
  | str tok x => simp only [Eval.expr]; exact done (.str x) hs
  | unary tok op e =>
    simp only [Eval.expr]
    exact operand (ih.expr e hc hs) fun v v' s t hv hs => done (hv.unary op) hs
  | binary tok l op r =>
    simp only [Eval.expr]
    refine operand (ih.expr l hc hs) fun v v' s t hv hs => ?_
    rw [hv.truthy_eq]
    split
    · split
      · exact ih.logical r hc hs
      · exact done (.bool false) hs
    · split
      · split
        · exact done (.bool true) hs
        · exact ih.logical r hc hs
      -- Neither a conjunction nor a disjunction, so the right operand is evaluated in any case.
      · exact operand (ih.expr r hc hs) fun w w' s t hw hs => done (hv.binary hm hw op) hs
  | choice tok c a b =>
    rw [expr_choice, expr_choice]
    refine operand (ih.expr c hc hs) fun v v' s t hv hs => ?_
    rw [hv.truthy_eq]
    split
    · exact ih.block a hc hs
    · split
      · exact done .null hs
      · exact ih.block b hc hs
  | loop tok c b => simp only [Eval.expr]; exact ih.loop c b hc hs
  | fn tok ps b =>
    simp only [Eval.expr]
    obtain ⟨hclosure, hstore⟩ := hs.newClosure tok ps b hc.path
    exact done (.fn hclosure) hstore
  | call tok f as =>
    simp only [Eval.expr]
    refine operand (ih.expr f hc hs) fun v v' s t hv hs => ?_
    refine (ih.args as hc hs).bind ?_
    rintro vs s vs' t ⟨hvs, hs⟩
    cases hvs with
    | ok hvs => exact ih.call hc.depth hc.limit hv hvs hs
    | error hsig => exact done hsig hs

/-- Arguments are evaluated in lockstep up to the first signal, which comes at the same place. -/
theorem args_succ (ih : Lockstep m earlier earlier' fuel) (es : List Expr)
    (hc : ctx.Matches m ctx') (hs : s.Matches m earlier earlier' t) :
    (Eval.args (fuel + 1) ctx es s).Rel False
      (fun vs s vs' t => ArgsMatch m vs vs' ∧ s.Matches m earlier earlier' t)
      (Eval.args (fuel + 1) ctx' es t) := by
  cases es with
  | nil => simp only [Eval.args]; exact ⟨.ok .nil, hs⟩
  | cons e es =>
    simp only [Eval.args]
    refine (ih.expr e hc hs).bind ?_
    rintro r s r' t ⟨hr, hs⟩
    have hv := getD_matches hr
    -- The same argument is the first signal in both.
    simp only [← hv.isSignal_eq]
    split
    · exact ⟨.error hv, hs⟩
    · refine (ih.args es hc hs).bind ?_
      rintro vs s vs' t ⟨hvs, hs⟩
      cases hvs with
      | ok hvs => exact ⟨.ok (.cons hv hvs), hs⟩
      | error hsig => exact ⟨.error hsig, hs⟩

/-- A call is refused for the same reason, or runs the same body in scopes that come next in both
    stores. -/
theorem call_succ (hm : m.OneToOne) (ih : Lockstep m earlier earlier' fuel) {f f' : Value}
    {vs vs' : List Value} (hd : ctx.depth = ctx'.depth) (hl : ctx.limit = ctx'.limit)
    (hf : f.Matches m f') (hvs : List.Forall₂ (Value.Matches m) vs vs')
    (hs : s.Matches m earlier earlier' t) :
    (Eval.call (fuel + 1) ctx f vs s).Rel False (Ends m earlier earlier')
      (Eval.call (fuel + 1) ctx' f' vs' t) := by
  cases hf with
  | @fn c d h =>
    simp only [Eval.call, ← h.params, ← h.body, ← hvs.length_eq, ← hd, ← hl]
    split
    · exact done (.err _) hs
    · split
      · exact done (.err _) hs
      cases Ident.present? c.params with
      | none => trivial
      | some names =>
        -- The new scopes are the next ones of the two stores, inside those of the closures.
        have hctx : Context.Matches m
            ⟨⟨s.scopes.size, c.scopes⟩, ctx.depth + 1, ctx.limit⟩
            ⟨⟨t.scopes.size, d.scopes⟩, ctx.depth + 1, ctx.limit⟩ :=
          ⟨.cons (hs.nextScope 0) h.scopes, rfl, rfl⟩
        have hstore := (hs.alloc hm c.scopes d.scopes (bindParams_matches names hvs)).logCall h
          (ctx.depth + 1)
        refine (ih.block c.body hctx hstore).bind ?_
        rintro r s r' t ⟨hr, hs⟩
        exact done (unwrap_matches hr) hs
  | int n => simp only [Eval.call]; exact done (.err _) hs
  | bool b => simp only [Eval.call]; exact done (.err _) hs
  | str x => simp only [Eval.call]; exact done (.err _) hs
  | null => simp only [Eval.call]; exact done (.err _) hs
  | ret h => simp only [Eval.call]; exact done (.err _) hs
  | err e => simp only [Eval.call]; exact done (.err _) hs
  | brk => simp only [Eval.call]; exact done (.err _) hs

/-- A loop goes round equally often. -/
theorem loop_succ (ih : Lockstep m earlier earlier' fuel) (c : Expr) (b : Block)
    (hc : ctx.Matches m ctx') (hs : s.Matches m earlier earlier' t) :
    (Eval.loop (fuel + 1) ctx c b s).Rel False (Ends m earlier earlier')
      (Eval.loop (fuel + 1) ctx' c b t) := by
  simp only [Eval.loop]
  refine operand (ih.expr c hc hs) fun v v' s t hv hs => ?_
  rw [hv.truthy_eq]
  split
  · refine (ih.block b hc hs).bind ?_
    rintro r s r' t ⟨hr, hs⟩
    cases hr with
    | none => exact ih.loop c b hc hs
    | some hv =>
      cases hv with
      | brk => exact done .null hs
      | ret h => exact done (.ret h) hs
      | err e => exact done (.err e) hs
      -- The body had a value, which the next round does not look at.
      | int | bool | str | null | fn => exact ih.loop c b hc hs
  · exact done .null hs

/-- Statements are run in lockstep up to the first signal. -/
theorem stmts_succ (ih : Lockstep m earlier earlier' fuel) (ss : List Stmt) {last last' : Result}
    (hc : ctx.Matches m ctx') (hl : Option.Rel (Value.Matches m) last last')
    (hs : s.Matches m earlier earlier' t) :
    (Eval.stmts (fuel + 1) ctx ss last s).Rel False (Ends m earlier earlier')
      (Eval.stmts (fuel + 1) ctx' ss last' t) := by
  cases ss with
  | nil => simp only [Eval.stmts]; exact ⟨hl, hs⟩
  | cons st ss =>
    simp only [Eval.stmts]
    refine (ih.stmt st hc hs).bind ?_
    rintro r s r' t ⟨hr, hs⟩
    rw [isSignal_eq hr]
    split
    · exact ⟨hr, hs⟩
    · exact ih.stmts ss hc hr hs

/-- A binding binds matching values in matching scopes. -/
theorem stmt_succ (hm : m.OneToOne) (ih : Lockstep m earlier earlier' fuel) (st : Stmt)
    (hc : ctx.Matches m ctx') (hs : s.Matches m earlier earlier' t) :
    (Eval.stmt (fuel + 1) ctx st s).Rel False (Ends m earlier earlier')
      (Eval.stmt (fuel + 1) ctx' st t) := by
  cases st with
  | missing => simp only [Eval.stmt]; exact done (.err _) hs
  | bind tok x e =>
    simp only [Eval.stmt]
    refine operand (ih.expr e hc hs) fun v v' s t hv hs => ?_
    cases x with
    | none => trivial
    | some x => exact ⟨.none, hs.set hm hc.scope x.name hv⟩
  | ret tok e =>
    by_cases he : e = .missing
    · simp only [he, Eval.stmt]
      exact done (.ret .null) hs
    · rw [stmt_ret he, stmt_ret he]
      exact operand (ih.expr e hc hs) fun v v' s t hv hs => done (.ret hv) hs
  | brk tok => simp only [Eval.stmt]; exact done .brk hs
  | expr tok e => simp only [Eval.stmt]; exact ih.expr e hc hs
  | block b => simp only [Eval.stmt]; exact ih.block b hc hs

end Lockstep

variable {m}

/-- **Evaluations that start matched go in lockstep**, under every bound.  The two runs allocate at
    the same moments, so the matching is extended by the two new scopes at each call and each
    function that is made. -/
theorem lockstep (hm : m.OneToOne) (fuel : Nat) : Lockstep m earlier earlier' fuel := by
  induction fuel with
  | zero =>
    -- Both evaluations have reached their bound.
    constructor <;> intros <;>
      simp only [expr, logical, args, call, loop, block, stmts, stmt] <;> trivial
  | succ fuel ih =>
    constructor
    case expr => exact fun e hc hs => Lockstep.expr_succ hm ih e hc hs
    case logical =>
      intro ctx ctx' s t e hc hs
      simp only [logical]
      exact Lockstep.operand (ih.expr e hc hs) fun v v' s t hv hs =>
        hv.truthy_eq ▸ Lockstep.done (.bool v.truthy) hs
    case args => exact fun es hc hs => Lockstep.args_succ ih es hc hs
    case call => exact fun hd hl hf hvs hs => Lockstep.call_succ hm ih hd hl hf hvs hs
    case loop => exact fun c b hc hs => Lockstep.loop_succ ih c b hc hs
    case block =>
      intro ctx ctx' s t b hc hs
      cases b with
      | missing => simp only [block]; trivial
      | mk tok ss => simp only [block]; exact ih.stmts ss hc .none hs
    case stmts => exact fun ss hc hl hs => Lockstep.stmts_succ ih ss hc hl hs
    case stmt => exact fun st hc hs => Lockstep.stmt_succ hm ih st hc hs

end Eval

end Incognita
