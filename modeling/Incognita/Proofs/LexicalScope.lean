import Mathlib.Data.Set.Function
import Incognita.Proofs.Evaluations
import Incognita.Proofs.Matching
import Incognita.Proofs.Reachable

namespace Incognita

/-!
# Eval — calls are lexically scoped

What a call does is settled by the function, its arguments, and what can be reached from them.

* `Renaming`, `Value.rename` — other numbers for scopes and closures;
* `Store.Corresponds` — two stores look the same from some values in each of them;
* `call_lexical` — calls in stores that correspond end alike, and a call has no effect on the
  next one.
-/

/-! ### Correspondence -/

/-- Other numbers for scopes and closures. -/
structure Renaming where
  scope : ScopeId → ScopeId
  closure : Nat → Nat

/-- The closure of the same function literal in the renamed scopes. -/
def Closure.rename (ρ : Renaming) (c : Closure) : Closure :=
  { c with scopes := c.scopes.map ρ.scope, id := ρ.closure c.id }

/-- The value with its closure renamed. -/
def Value.rename (ρ : Renaming) : Value → Value
  | .fn c => .fn (c.rename ρ)
  | .ret v => .ret (v.rename ρ)
  | v => v

/-- The stores look the same from the values: a renaming is one to one between the scopes and the
    closures that can be reached, and respects what is bound. -/
structure Store.Corresponds (ρ : Renaming) (s t : Store) (vs ws : List Value) : Prop where
  /-- The values differ in the numbers of scopes and functions only. -/
  roots : ws = vs.map (Value.rename ρ)
  /-- The scopes that can be reached are renamed one to one. -/
  scopes : Set.BijOn ρ.scope (s.scopesFrom vs) (t.scopesFrom ws)
  /-- So are the functions. -/
  closures : Set.BijOn ρ.closure (s.closuresFrom vs) (t.closuresFrom ws)
  /-- The scopes bind the same names to values that correspond. -/
  bindings : ∀ i ∈ s.scopesFrom vs, ∀ x,
    t.binding? (ρ.scope i) x = (s.binding? i x).map (Value.rename ρ)

/-! ### From a matching to a correspondence -/

/-- A member of the first list has a partner in the second one. -/
theorem forall₂_mem {α β : Type} {R : α → β → Prop} {as : List α} {bs : List β} {a : α}
    (h : List.Forall₂ R as bs) (ha : a ∈ as) : ∃ b ∈ bs, R a b := by
  induction h with
  | nil => simp at ha
  | cons hr _ ih =>
    rcases List.mem_cons.1 ha with rfl | ha
    · exact ⟨_, List.mem_cons_self, hr⟩
    · obtain ⟨b, hb, hab⟩ := ih ha
      exact ⟨b, List.mem_cons_of_mem _ hb, hab⟩

namespace Matching

/-- The same matching, seen from the other store. -/
def swap (m : Matching) : Matching := ⟨fun j i => m.scope i j, fun b a => m.closure a b⟩

/-- Matched scopes of the two stores bind matched values. -/
def Binds (m : Matching) (s t : Store) : Prop :=
  ∀ i j, m.scope i j → ∀ x, Option.Rel (Value.Matches m) (s.binding? i x) (t.binding? j x)

variable {m : Matching} {s t : Store} {vs ws : List Value}

/-- Closures that match also match in the other direction. -/
theorem swap_closure {c d : Closure} (h : c.Matches m d) : d.Matches m.swap c :=
  ⟨h.token.symm, h.params.symm, h.body.symm, h.scopes.flip, h.id⟩

/-- So do values. -/
theorem swap_value {v w : Value} (h : v.Matches m w) : w.Matches m.swap v := by
  induction h with
  | int n => exact .int n
  | bool b => exact .bool b
  | str x => exact .str x
  | null => exact .null
  | fn h => exact .fn (swap_closure h)
  | ret _ ih => exact .ret ih
  | err e => exact .err e
  | brk => exact .brk

/-- So do the bindings of two stores. -/
theorem Binds.swap (h : m.Binds s t) : m.swap.Binds t s := by
  intro j i hij x
  have hrel := h i j hij x
  revert hrel
  generalize s.binding? i x = a
  generalize t.binding? j x = b
  rintro (hv | _)
  · exact .some (swap_value hv)
  · exact .none

/-- A value that matches one with a closure has a closure that matches it. -/
theorem closure?_matches {v w : Value} {c : Closure} (h : v.Matches m w)
    (hc : v.closure? = some c) : ∃ d, w.closure? = some d ∧ c.Matches m d := by
  induction h with
  | fn h =>
    obtain rfl : _ = c := Option.some.inj hc
    exact ⟨_, rfl, h⟩
  | ret _ ih => exact ih hc
  | _ => simp [Value.closure?] at hc

/-- **What can be reached in one store is matched with what can be reached in the other.**  By
    induction on the way from a value to a closure, each step of which goes through a binding of a
    matched scope. -/
theorem reaches (hb : m.Binds s t) (hv : List.Forall₂ (Value.Matches m) vs ws) {c : Closure}
    (h : s.Reaches vs c) : ∃ d, t.Reaches ws d ∧ c.Matches m d := by
  induction h with
  | root hmem hc =>
    obtain ⟨w, hw, hvw⟩ := forall₂_mem hv hmem
    obtain ⟨d, hd, hcd⟩ := closure?_matches hvw hc
    exact ⟨d, .root hw hd, hcd⟩
  | @bound c i x v d _ hi hbv hd ih =>
    obtain ⟨c', hreach, hcc⟩ := ih
    obtain ⟨j, hj, hij⟩ := forall₂_mem hcc.scopes hi
    have hrel := hb i j hij x
    rw [hbv] at hrel
    -- The matched scope binds the name as well, to a matched value.
    obtain ⟨w, hbw, hvw⟩ : ∃ w, t.binding? j x = some w ∧ v.Matches m w := by
      revert hrel
      generalize t.binding? j x = b
      rintro ⟨hvw⟩
      exact ⟨_, rfl, hvw⟩
    obtain ⟨d', hd', hdd⟩ := closure?_matches hvw hd
    exact ⟨d', .bound hreach hj hbw hd', hdd⟩

/-- The renaming does what the matching says. -/
structure Follows (ρ : Renaming) (m : Matching) : Prop where
  /-- A scope is matched with none but what it is renamed to. -/
  scope : ∀ {i j}, m.scope i j → j = ρ.scope i
  /-- And so is a function. -/
  closure : ∀ {a b}, m.closure a b → b = ρ.closure a

variable {ρ : Renaming}

/-- Scopes that match are the renamed ones. -/
theorem Follows.scopes (hρ : m.Follows ρ) {is js : List ScopeId}
    (h : List.Forall₂ m.scope is js) : js = is.map ρ.scope := by
  induction h with
  | nil => rfl
  | cons hij _ ih => rw [List.map_cons, ← hρ.scope hij, ih]

/-- So are values, down to the closure inside them. -/
theorem Follows.value (hρ : m.Follows ρ) {v w : Value} (h : v.Matches m w) : w = v.rename ρ := by
  induction h with
  | @fn c d h =>
    obtain ⟨token, params, body, is, n⟩ := c
    obtain ⟨token', params', body', js, n'⟩ := d
    obtain ⟨rfl, rfl, rfl, hs, hid⟩ := h
    have hjs : js = is.map ρ.scope := hρ.scopes hs
    have hn : n' = ρ.closure n := hρ.closure hid
    rw [hjs, hn]
    rfl
  | ret _ ih => rw [ih]; rfl
  | _ => rfl

/-- So is a value that may be missing. -/
theorem Follows.option (hρ : m.Follows ρ) {a b : Option Value}
    (h : Option.Rel (Value.Matches m) a b) : b = a.map (Value.rename ρ) := by
  cases h with
  | some hv => rw [hρ.value hv]; rfl
  | none => rfl

/-- So are lists of values. -/
theorem Follows.values (hρ : m.Follows ρ) (h : List.Forall₂ (Value.Matches m) vs ws) :
    ws = vs.map (Value.rename ρ) := by
  induction h with
  | nil => rfl
  | cons hv _ ih => rw [List.map_cons, ← hρ.value hv, ← ih]

/-- A scope that can be reached is matched with one that can be reached. -/
theorem Follows.scopesFrom (hρ : m.Follows ρ) (hb : m.Binds s t)
    (hv : List.Forall₂ (Value.Matches m) vs ws) {i : ScopeId} (hi : i ∈ s.scopesFrom vs) :
    m.scope i (ρ.scope i) ∧ ρ.scope i ∈ t.scopesFrom ws := by
  obtain ⟨c, hc, hi⟩ := hi
  obtain ⟨d, hd, hcd⟩ := reaches hb hv hc
  obtain ⟨j, hj, hij⟩ := forall₂_mem hcd.scopes hi
  obtain rfl := hρ.scope hij
  exact ⟨hij, d, hd, hj⟩

/-- A closure that can be got at is matched with its renaming, which can be got at as well. -/
theorem Follows.closuresFrom (hρ : m.Follows ρ) (hb : m.Binds s t)
    (hv : List.Forall₂ (Value.Matches m) vs ws) {n : Nat} (hn : n ∈ s.closuresFrom vs) :
    m.closure n (ρ.closure n) ∧ ρ.closure n ∈ t.closuresFrom ws := by
  obtain ⟨c, hc, rfl⟩ := hn
  obtain ⟨d, hd, hcd⟩ := reaches hb hv hc
  rw [← hρ.closure hcd.id]
  exact ⟨hcd.id, d, hd, rfl⟩

/-- **Matched stores correspond.**  The renaming is one-to-one because the matching is, and it comes
    to all that the second store reaches because the matching works in both directions. -/
theorem Follows.corresponds (hm : m.OneToOne) (hρ : m.Follows ρ) (hb : m.Binds s t)
    (hv : List.Forall₂ (Value.Matches m) vs ws) : s.Corresponds ρ t vs ws where
  roots := hρ.values hv
  scopes := by
    refine ⟨fun i hi => (hρ.scopesFrom hb hv hi).2, ?_, ?_⟩
    · intro i hi i' hi' heq
      exact (hm.scope (hρ.scopesFrom hb hv hi).1 (hρ.scopesFrom hb hv hi').1).2 heq
    · -- What the second store reaches is matched with what the first one does.
      rintro j ⟨d, hd, hj⟩
      obtain ⟨c, hc, hcd⟩ := reaches hb.swap (hv.imp fun _ _ => swap_value).flip hd
      obtain ⟨i, hi, hij⟩ := forall₂_mem hcd.scopes hj
      exact ⟨i, ⟨c, hc, hi⟩, (hρ.scope hij).symm⟩
  closures := by
    refine ⟨fun n hn => (hρ.closuresFrom hb hv hn).2, ?_, ?_⟩
    · intro n hn n' hn' heq
      exact (hm.closure (hρ.closuresFrom hb hv hn).1 (hρ.closuresFrom hb hv hn').1).2 heq
    · rintro _ ⟨d, hd, rfl⟩
      obtain ⟨c, hc, hcd⟩ := reaches hb.swap (hv.imp fun _ _ => swap_value).flip hd
      exact ⟨c.id, ⟨c, hc, rfl⟩, (hρ.closure hcd.id).symm⟩
  bindings := fun i hi x => hρ.option (hb i _ (hρ.scopesFrom hb hv hi).1 x)

end Matching

/-! ### From a correspondence to a matching -/

/-- Numbers below `n` by a function, and the others counted on from `n` and `n'`. -/
def Shifted (A : Set Nat) (f : Nat → Nat) (n n' i j : Nat) : Prop :=
  (i ∈ A ∧ j = f i) ∨ ∃ k, i = n + k ∧ j = n' + k

namespace Shifted

variable {A B : Set Nat} {f : Nat → Nat} {n n' i j i' j' : Nat}

/-- A function that is one to one stays so when counting goes on behind its arguments and its
    values. -/
theorem oneToOne (hf : Set.BijOn f A B) (hA : ∀ a ∈ A, a < n) (hB : ∀ b ∈ B, b < n')
    (h : Shifted A f n n' i j) (h' : Shifted A f n n' i' j') : i = i' ↔ j = j' := by
  -- Numbers of the two parts never meet, on either side.
  rcases h with ⟨hi, rfl⟩ | ⟨k, rfl, rfl⟩ <;> rcases h' with ⟨hi', rfl⟩ | ⟨k', rfl, rfl⟩
  · exact ⟨fun h => h ▸ rfl, fun h => hf.injOn hi hi' h⟩
  · have hlt := hA i hi
    have hlt' := hB (f i) (hf.mapsTo hi)
    omega
  · have hlt := hA i' hi'
    have hlt' := hB (f i') (hf.mapsTo hi')
    omega
  · omega

/-- The function that goes on counting. -/
def function (f : Nat → Nat) (n n' i : Nat) : Nat := if i < n then f i else n' + (i - n)

/-- What `Shifted` relates to a number is what `function` gives for it. -/
theorem eq_function (hA : ∀ a ∈ A, a < n) (h : Shifted A f n n' i j) : j = function f n n' i := by
  rw [function]
  rcases h with ⟨hi, rfl⟩ | ⟨k, rfl, rfl⟩
  · rw [if_pos (hA i hi)]
  · rw [if_neg (by omega)]
    omega

end Shifted

namespace Store.Corresponds

variable {ρ : Renaming} {s t : Store} {vs ws : List Value}

/-- What can be reached is matched as the renaming says, and what comes next in one store with
    what comes next in the other. -/
def matching (ρ : Renaming) (s t : Store) (vs : List Value) : Matching where
  scope := Shifted (s.scopesFrom vs) ρ.scope s.scopes.size t.scopes.size
  closure := Shifted (s.closuresFrom vs) ρ.closure s.closures t.closures

/-- The renaming, going on with what comes next. -/
def extended (ρ : Renaming) (s t : Store) : Renaming where
  scope := Shifted.function ρ.scope s.scopes.size t.scopes.size
  closure := Shifted.function ρ.closure s.closures t.closures

/-- Stores that correspond are matched one to one, with what comes next in both of them. -/
theorem oneToOne (h : s.Corresponds ρ t vs ws) (hs : s.Allocated vs) (ht : t.Allocated ws) :
    (matching ρ s t vs).OneToOne :=
  ⟨Shifted.oneToOne h.scopes hs.scopes ht.scopes,
    Shifted.oneToOne h.closures hs.closures ht.closures⟩

/-- The renaming that goes on counting does what that matching says. -/
theorem follows (hs : s.Allocated vs) : (matching ρ s t vs).Follows (extended ρ s t) :=
  ⟨Shifted.eq_function hs.scopes, Shifted.eq_function hs.closures⟩

/-- A value that can be reached is matched with its renaming. -/
theorem matches_rename {v : Value} (hv : ∀ c, v.closure? = some c → s.Reaches vs c) :
    v.Matches (matching ρ s t vs) (v.rename ρ) := by
  induction v with
  | fn c =>
    have hc := hv c rfl
    refine .fn ⟨rfl, rfl, rfl, ?_, .inl ⟨⟨c, hc, rfl⟩, rfl⟩⟩
    rw [Closure.rename, List.forall₂_map_right_iff, List.forall₂_same]
    exact fun i hi => .inl ⟨⟨c, hc, hi⟩, rfl⟩
  | ret v ih => exact .ret (ih hv)
  | int n => exact .int n
  | bool b => exact .bool b
  | str x => exact .str x
  | null => exact .null
  | err e => exact .err e
  | brk => exact .brk

/-- The values that are looked at match, as all their scopes can be got at. -/
theorem roots_matches (h : s.Corresponds ρ t vs ws) :
    List.Forall₂ (Value.Matches (matching ρ s t vs)) vs ws := by
  rw [h.roots, List.forall₂_map_right_iff, List.forall₂_same]
  exact fun v hv => matches_rename fun c hc => .root hv hc

/-- **Stores that correspond are matched.**  The other way round: what a renaming maps is related,
    and what cannot be reached need not be. -/
theorem storeMatches (h : s.Corresponds ρ t vs ws) (hs : s.Allocated vs) (ht : t.Allocated ws) :
    s.Matches (matching ρ s t vs) s.calls t.calls t where
  binding := by
    rintro i j (⟨hi, rfl⟩ | ⟨k, rfl, rfl⟩) x
    · rw [h.bindings i hi x]
      cases hb : s.binding? i x with
      | none => exact .none
      | some v =>
        obtain ⟨c, hc, hi⟩ := hi
        exact .some (matches_rename fun d hd => .bound hc hi hb hd)
    -- What will come next binds nothing yet.
    · rw [binding?_of_size_le (Nat.le_add_right _ _), binding?_of_size_le (Nat.le_add_right _ _)]
      exact .none
  bound := by
    rintro i j (⟨hi, rfl⟩ | ⟨k, rfl, rfl⟩)
    · exact iff_of_true (hs.scopes i hi) (ht.scopes _ (h.scopes.mapsTo hi))
    · exact iff_of_false (Nat.not_lt.2 (Nat.le_add_right _ _)) (Nat.not_lt.2 (Nat.le_add_right _ _))
  nextScope := fun n => .inr ⟨n, rfl, rfl⟩
  nextClosure := fun n => .inr ⟨n, rfl, rfl⟩
  calls := ⟨[], [], rfl, rfl, .nil⟩

end Store.Corresponds

/-! ### Calls -/

namespace Eval

/-- What the entry of a call in the log says: the signature of the function that was called, and how
    deeply the call was nested. -/
def entryOf (c : Call) : Option String × Nat := (c.callee.signature, c.depth)

/-- The calls noted down on the way from `s` to `u` have the same entries in the log as those on the
    way from `t` to `u'`. -/
def SameLog (s u t u' : Store) : Prop :=
  ∃ new new', u.calls = new ++ s.calls ∧ u'.calls = new' ++ t.calls ∧
    new.map entryOf = new'.map entryOf

/-- Matched calls have the same entry: no entry tells scopes or closures apart. -/
theorem entryOf_eq {m : Matching} {c d : Call} (h : c.Matches m d) : entryOf c = entryOf d := by
  rw [entryOf, entryOf, Closure.signature, Closure.signature, h.callee.token, h.callee.params,
    h.depth]

/-- Calls that match have the same entries in the log, by `entryOf`: matching closures have the same
    signature. -/
theorem sameLog {m : Matching} {s t u u' : Store} (h : u.Matches m s.calls t.calls u') :
    SameLog s u t u' := by
  obtain ⟨new, new', hu, hu', hnew⟩ := h.calls
  refine ⟨new, new', hu, hu', ?_⟩
  clear hu hu'
  induction hnew with
  | nil => rfl
  | cons hc _ ih => rw [List.map_cons, List.map_cons, entryOf_eq hc, ih]

section

variable {ρ : Renaming} {s t : Store} {f f' : Value} {vs vs' : List Value} {ctx ctx' : Context}

/-- Calls in stores that correspond go in lockstep. -/
theorem call_rel (h : s.Corresponds ρ t (f :: vs) (f' :: vs')) (hs : s.Allocated (f :: vs))
    (ht : t.Allocated (f' :: vs')) (hd : ctx.depth = ctx'.depth) (hl : ctx.limit = ctx'.limit)
    (fuel : Nat) : (call fuel ctx f vs s).Rel False
      (Ends (Store.Corresponds.matching ρ s t (f :: vs)) s.calls t.calls)
      (call fuel ctx' f' vs' t) := by
  obtain ⟨hf, hvs⟩ := List.forall₂_cons.1 h.roots_matches
  exact (lockstep s.calls t.calls (h.oneToOne hs ht) fuel).call hd hl hf hvs (h.storeMatches hs ht)

/-- When both calls end, they end alike. -/
theorem calls_ends (h : s.Corresponds ρ t (f :: vs) (f' :: vs')) (hs : s.Allocated (f :: vs))
    (ht : t.Allocated (f' :: vs')) (hd : ctx.depth = ctx'.depth) (hl : ctx.limit = ctx'.limit)
    {r r' : Result} {u u' : Store} (hc : Calls ctx f vs s r u) (hc' : Calls ctx' f' vs' t r' u') :
    Ends (Store.Corresponds.matching ρ s t (f :: vs)) s.calls t.calls r u r' u' := by
  obtain ⟨n, hn⟩ := hc
  obtain ⟨n', hn'⟩ := hc'
  -- Under the larger of the two bounds both calls end, and they go in lockstep there.
  have hrel := call_rel h hs ht hd hl (max n n')
  have hm : call (max n n') ctx f vs s = .done r u :=
    @Job.run_mono n (max n n') ctx s (.call f vs) r u (Nat.le_max_left n n') hn
  have hm' : call (max n n') ctx' f' vs' t = .done r' u' :=
    @Job.run_mono n' (max n n') ctx' t (.call f' vs') r' u' (Nat.le_max_right n n') hn'
  rwa [hm, hm'] at hrel

/-- One of the calls ends exactly if the other one does. -/
theorem calls_iff (h : s.Corresponds ρ t (f :: vs) (f' :: vs')) (hs : s.Allocated (f :: vs))
    (ht : t.Allocated (f' :: vs')) (hd : ctx.depth = ctx'.depth) (hl : ctx.limit = ctx'.limit) :
    (∃ r u, Calls ctx f vs s r u) ↔ ∃ r u, Calls ctx' f' vs' t r u := by
  constructor
  · rintro ⟨r, u, n, hn⟩
    have hrel := call_rel h hs ht hd hl n
    rw [hn] at hrel
    cases hr : call n ctx' f' vs' t with
    | done r' u' => exact ⟨r', u', n, hr⟩
    | fault | outOfFuel => rw [hr] at hrel; exact hrel.elim
  · rintro ⟨r, u, n, hn⟩
    have hrel := call_rel h hs ht hd hl n
    rw [hn] at hrel
    cases hr : call n ctx f vs s with
    | done r' u' => exact ⟨r', u', n, hr⟩
    | fault | outOfFuel => rw [hr] at hrel; exact hrel.elim

end

/-! ### Calls one after another -/

section

variable {s t : Store} {roots : List Value}

/-- What can be reached stays the same when no scope that was there changes. -/
theorem reaches_iff (hs : s.Allocated roots) (hg : s.Grows (fun _ _ => False) t) (c : Closure) :
    s.Reaches roots c ↔ t.Reaches roots c := by
  -- A scope that can be reached was there, so it binds what it bound.
  have hsame : ∀ {c i x}, s.Reaches roots c → i ∈ c.scopes → t.binding? i x = s.binding? i x :=
    fun hc hi => hg.same (hs.scopes _ ⟨_, hc, hi⟩) id
  -- By induction on the way to a closure.
  constructor
  · intro h
    induction h with
    | root hv hc => exact .root hv hc
    | bound hc hi hv hd ih => exact .bound ih hi ((hsame hc hi).trans hv) hd
  · intro h
    induction h with
    | root hv hc => exact .root hv hc
    | bound _ hi hv hd ih => exact .bound ih hi ((hsame ih hi).symm.trans hv) hd

/-- Renaming nothing leaves every value as it is. -/
theorem rename_id (v : Value) : v.rename ⟨id, id⟩ = v := by
  induction v with
  | fn c => simp [Value.rename, Closure.rename]
  | ret v ih => rw [Value.rename, ih]
  | _ => rfl

/-- A store that has only grown corresponds to what it was. -/
theorem corresponds_of_grows (hs : s.Allocated roots) (hg : s.Grows (fun _ _ => False) t) :
    s.Corresponds ⟨id, id⟩ t roots roots ∧ t.Allocated roots := by
  -- Nothing that was there is written, so what can be got at is the same.
  have hscopes : t.scopesFrom roots = s.scopesFrom roots := by
    simp only [Store.scopesFrom, reaches_iff hs hg]
  have hclosures : t.closuresFrom roots = s.closuresFrom roots := by
    simp only [Store.closuresFrom, reaches_iff hs hg]
  refine ⟨⟨?_, ?_, ?_, ?_⟩, ?_, ?_⟩
  · rw [show Value.rename ⟨id, id⟩ = id from funext rename_id, List.map_id]
  · rw [hscopes]
    exact Set.bijOn_id _
  · rw [hclosures]
    exact Set.bijOn_id _
  · intro i hi x
    rw [show Value.rename ⟨id, id⟩ = id from funext rename_id, Option.map_id]
    exact hg.same (hs.scopes i hi) id
  · rw [hscopes]
    exact fun i hi => Nat.lt_of_lt_of_le (hs.scopes i hi) hg.size
  · rw [hclosures]
    exact fun n hn => Nat.lt_of_lt_of_le (hs.closures n hn) hg.closures

end

/-- Results match if their values do, or if neither has one. -/
theorem toList_matches {m : Matching} {r r' : Result} (h : Option.Rel (Value.Matches m) r r') :
    List.Forall₂ (Value.Matches m) r.toList r'.toList := by
  cases h with
  | some hv => exact .cons hv .nil
  | none => exact .nil

/-- Matched results are of one kind and are shown alike. -/
theorem shown_eq {m : Matching} {r r' : Result} (h : Option.Rel (Value.Matches m) r r') :
    r'.map Value.kind = r.map Value.kind ∧ r'.map Value.inspect = r.map Value.inspect := by
  cases h with
  | some hv => exact ⟨by simp [hv.kind_eq], by simp [hv.inspect_eq]⟩
  | none => exact ⟨rfl, rfl⟩

/-- **Calls are lexically scoped and have no hidden state.**  Take a function and arguments in one
    store, and the same in another store up to a renaming of the scopes and closures that can be
    reached from them, at one depth and under one limit; all else may differ.  What can be reached
    is there, as it is throughout a session.  Then the one call ends exactly if the other one does.
    When they end, they have made the same entries in the log, and the results and what can be
    reached after the calls correspond, by a renaming that goes on from the given one.  And a second
    call right after the first one ends with a result of the same kind that is shown alike. -/
theorem call_lexical {ρ : Renaming} {s t : Store} {f f' : Value} {vs vs' : List Value}
    {ctx ctx' : Context} (h : s.Corresponds ρ t (f :: vs) (f' :: vs'))
    (hs : s.Allocated (f :: vs)) (ht : t.Allocated (f' :: vs'))
    (hd : ctx.depth = ctx'.depth) (hl : ctx.limit = ctx'.limit) :
    ((∃ r u, Calls ctx f vs s r u) ↔ ∃ r u, Calls ctx' f' vs' t r u) ∧
    (∀ r u r' u', Calls ctx f vs s r u → Calls ctx' f' vs' t r' u' →
      SameLog s u t u' ∧
      ∃ ρ' : Renaming, (∀ i ∈ s.scopesFrom (f :: vs), ρ'.scope i = ρ.scope i) ∧
        (∀ n ∈ s.closuresFrom (f :: vs), ρ'.closure n = ρ.closure n) ∧
        r' = r.map (Value.rename ρ') ∧
        u.Corresponds ρ' u' (r.toList ++ f :: vs) (r'.toList ++ f' :: vs')) ∧
    (∀ r u, Calls ctx f vs s r u → ∃ r₂ u₂, Calls ctx f vs u r₂ u₂ ∧
      r₂.map Value.kind = r.map Value.kind ∧ r₂.map Value.inspect = r.map Value.inspect) := by
  refine ⟨calls_iff h hs ht hd hl, ?_, ?_⟩
  · intro r u r' u' hc hc'
    obtain ⟨hr, hstore⟩ := calls_ends h hs ht hd hl hc hc'
    have hρ := Store.Corresponds.follows (ρ := ρ) (t := t) hs
    refine ⟨sameLog hstore, Store.Corresponds.extended ρ s t, ?_, ?_, hρ.option hr, ?_⟩
    · exact fun i hi => if_pos (hs.scopes i hi)
    · exact fun n hn => if_pos (hs.closures n hn)
    · refine hρ.corresponds (h.oneToOne hs ht) (fun i j hij => hstore.binding hij) ?_
      exact List.rel_append (toList_matches hr) h.roots_matches
  -- After the first call the store has only grown, so it corresponds to what it was.
  · intro r u hc
    obtain ⟨n, hn⟩ := hc
    obtain ⟨hcorr, hu⟩ := corresponds_of_grows hs (call_grows hn)
    obtain ⟨r₂, u₂, hc₂⟩ := (calls_iff hcorr hs hu rfl rfl).1 ⟨r, u, n, hn⟩
    obtain ⟨hr, -⟩ := calls_ends hcorr hs hu rfl rfl ⟨n, hn⟩ hc₂
    exact ⟨r₂, u₂, hc₂, shown_eq hr⟩

/-! ### A closure over one scope -/

/-- The function `operacion() { x }` in the scope `i`. -/
def readsX (i id : Nat) : Closure :=
  ⟨⟨.kwFunction, "operacion"⟩, [],
    .mk ⟨.lbrace, "\x7b"⟩ [.expr ⟨.ident, "x"⟩ (.ident (.ofToken ⟨.ident, "x"⟩))], [i], id⟩

/-- From a closure whose scope binds no closures, only the closure itself can be reached. -/
theorem reaches_readsX {s : Store} {i n : Nat}
    (h : ∀ x v, s.binding? i x = some v → v.closure? = none) (c : Closure) :
    s.Reaches [.fn (readsX i n)] c ↔ c = readsX i n := by
  constructor
  · intro hc
    induction hc with
    | root hv hc =>
      obtain rfl := List.mem_singleton.1 hv
      exact (Option.some.inj hc).symm
    | bound _ hi hv hd ih =>
      subst ih
      obtain rfl := List.mem_singleton.1 hi
      rw [h _ _ hv] at hd
      exact absurd hd (by simp)
  · rintro rfl
    exact .root List.mem_cons_self rfl

/-- A store whose last scope binds `x` to seven, behind `n` empty ones. -/
def sevenBehind (n : Nat) : Store :=
  { scopes := (Array.replicate n []).push [("x", .int 7)], closures := n + 1 }

/-- The last scope of `sevenBehind` binds `x`, and nothing else is bound. -/
theorem binding?_sevenBehind (n : Nat) (x : String) :
    (sevenBehind n).binding? n x = if x = "x" then some (.int 7) else none := by
  have hlast : (sevenBehind n).scopes[n]? = some [("x", .int 7)] := by
    rw [sevenBehind, Array.getElem?_push, Array.size_replicate, if_pos rfl]
  rw [Store.binding?, Array.getD_eq_getD_getElem?, hlast, Option.getD_some, List.lookup_cons]
  by_cases hx : x = "x"
  · simp [hx]
  · have hne : (x == "x") = false := by simpa using hx
    simp [hne, hx]

/-- Nothing is to be got at there but the function itself. -/
theorem reaches_sevenBehind (n : Nat) (c : Closure) :
    (sevenBehind n).Reaches [.fn (readsX n n)] c ↔ c = readsX n n := by
  refine reaches_readsX (fun x v hv => ?_) c
  rw [binding?_sevenBehind] at hv
  split at hv
  · rw [← Option.some.inj hv]
    rfl
  · exact absurd hv (by simp)

/-- Its scope is the only one. -/
theorem scopesFrom_sevenBehind (n : Nat) :
    (sevenBehind n).scopesFrom [.fn (readsX n n)] = {n} := by
  ext i
  simp only [Store.scopesFrom, reaches_sevenBehind, Set.mem_ofPred_eq, exists_eq_left]
  exact List.mem_singleton

/-- Its number is the only one of a function. -/
theorem closuresFrom_sevenBehind (n : Nat) :
    (sevenBehind n).closuresFrom [.fn (readsX n n)] = {n} := by
  ext i
  simp only [Store.closuresFrom, reaches_sevenBehind, Set.mem_ofPred_eq, exists_eq_left]
  exact eq_comm

/-- The scope and the function are there. -/
theorem allocated_sevenBehind (n : Nat) : (sevenBehind n).Allocated [.fn (readsX n n)] := by
  constructor
  · rw [scopesFrom_sevenBehind]
    simp [sevenBehind]
  · rw [closuresFrom_sevenBehind]
    simp [sevenBehind]

/-- Two scopes more in front of it make a store that looks the same from the function. -/
theorem corresponds_sevenBehind :
    (sevenBehind 0).Corresponds ⟨(· + 2), (· + 2)⟩ (sevenBehind 2) [.fn (readsX 0 0)]
      [.fn (readsX 2 2)] where
  roots := rfl
  scopes := by simp [scopesFrom_sevenBehind]
  closures := by simp [closuresFrom_sevenBehind]
  bindings := by
    rw [scopesFrom_sevenBehind]
    rintro i rfl x
    show (sevenBehind 2).binding? 2 x = _
    rw [binding?_sevenBehind, binding?_sevenBehind]
    split <;> rfl

/-- The function ends in both stores, whatever the environments it is called from. -/
theorem calls_sevenBehind : ∃ r u,
    Calls ⟨⟨1, [0]⟩, 3, 8⟩ (.fn (readsX 2 2)) [] (sevenBehind 2) r u := by
  have hlex := @call_lexical _ _ _ _ _ _ _ ⟨.root, 3, 8⟩ ⟨⟨1, [0]⟩, 3, 8⟩ corresponds_sevenBehind
    (allocated_sevenBehind 0) (allocated_sevenBehind 2) rfl rfl
  exact hlex.1.1 ⟨some (.int 7), _, 5, rfl⟩

end Eval

end Incognita
