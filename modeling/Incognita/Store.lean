import Incognita.Value

namespace Incognita

/-!
# Store — scopes and what they bind

Names are bound in scopes. A scope never moves and is never removed; new ones are
added behind the others, so a scope is known by its number. An environment is a
scope with the scopes around it.

* `Bindings` — the names of one scope, with `Bindings.set`;
* `Env` — an environment, with `Env.path`, its scopes from the innermost one out;
* `Call` — a call that was made;
* `Store` — all scopes, the calls made so far and the number of closures;
* `Store.get?`, `Store.set`, `Store.alloc` — look-up along an environment, binding
  in one scope, and a new scope.
-/

/-- The names of one scope and their values. -/
abbrev Bindings := List (String × Value)

namespace Bindings

/-- Binds a name, in the place of an earlier binding if there is one. -/
def set (name : String) (v : Value) : Bindings → Bindings
  | [] => [(name, v)]
  | (k, w) :: rest => if k = name then (k, v) :: rest else (k, w) :: set name v rest

theorem lookup_set_self (name : String) (v : Value) (b : Bindings) :
    (b.set name v).lookup name = some v := by
  induction b with
  | nil => simp [set]
  | cons p rest ih =>
    obtain ⟨k, w⟩ := p
    by_cases h : k = name
    · simp [set, h]
    · have h' : (name == k) = false := by simpa using fun e => h e.symm
      simp [set, h, List.lookup_cons, h', ih]

theorem lookup_set_of_ne {name other : String} (h : other ≠ name) (v : Value) (b : Bindings) :
    (b.set name v).lookup other = b.lookup other := by
  have hne : (other == name) = false := by simpa using h
  induction b with
  | nil => simp [set, List.lookup_cons, hne]
  | cons p rest ih =>
    obtain ⟨k, w⟩ := p
    by_cases hk : k = name
    · subst hk
      simp [set, List.lookup_cons, hne]
    · simp only [set, hk, if_false, List.lookup_cons, ih]

end Bindings

/-- The bindings of a call: every parameter with its argument, a later one of the
    same name in the place of an earlier one. -/
def bindParams (params : List Ident) (args : List Value) : Bindings :=
  (params.zip args).foldl (fun b p => b.set p.1.name p.2) []

/-- A scope and the scopes around it, from the innermost one out. -/
structure Env where
  scope : ScopeId
  outer : List ScopeId
  deriving DecidableEq, Repr, Inhabited

/-- The scopes of an environment, the innermost one first. -/
def Env.path (env : Env) : List ScopeId := env.scope :: env.outer

/-- The environment around an environment, if there is one. -/
def Env.outer? (env : Env) : Option Env :=
  match env.outer with
  | [] => none
  | scope :: outer => some ⟨scope, outer⟩

/-- A call that was made: the function and how deeply the call was nested. -/
structure Call where
  callee : Closure
  depth : Nat

/-- All scopes, the calls made so far (the latest first), and how many closures
    were made. -/
structure Store where
  scopes : Array Bindings := #[]
  calls : List Call := []
  closures : Nat := 0
  deriving Inhabited

namespace Store

/-- The value of a name in the first scope of the path that binds it. -/
def get? (s : Store) : List ScopeId → String → Option Value
  | [], _ => none
  | i :: path, name =>
    match (s.scopes.getD i []).lookup name with
    | some v => some v
    | none => s.get? path name

/-- Binds a name in one scope. -/
def set (s : Store) (i : ScopeId) (name : String) (v : Value) : Store :=
  { s with scopes := s.scopes.modify i (Bindings.set name v) }

/-- A new scope with some bindings, inside the scopes `outer`. -/
def alloc (s : Store) (outer : List ScopeId) (b : Bindings) : Env × Store :=
  (⟨s.scopes.size, outer⟩, { s with scopes := s.scopes.push b })

/-- Notes down a call. -/
def logCall (s : Store) (callee : Closure) (depth : Nat) : Store :=
  { s with calls := ⟨callee, depth⟩ :: s.calls }

/-- A closure over the scopes of an environment. -/
def newClosure (s : Store) (token : Token) (params : List (Option Ident)) (body : Block)
    (scopes : List ScopeId) : Closure × Store :=
  (⟨token, params, body, scopes, s.closures⟩, { s with closures := s.closures + 1 })

/-- A store with one empty scope. -/
def initial : Store := { scopes := #[[]] }

end Store

/-- The environment of the first scope of a store. -/
def Env.root : Env := ⟨0, []⟩

end Incognita
