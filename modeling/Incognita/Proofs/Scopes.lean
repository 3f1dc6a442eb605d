import Incognita.Store

namespace Incognita

/-!
# Store — what the operations do to the bindings

A store is read one scope and one name at a time, so what an operation does to a store is said
by what it does to `Store.binding?`.

* `Store.binding?` — the value of a name in one scope;
* `Store.get?_cons`, `Store.get?_eq_findSome?` — look-up asks the scopes of an environment one by
  one;
* `Store.binding?_set`, `Store.binding?_alloc` — a binding and a new scope change nothing else;
* `Store.get?_set_of_notMem` — so a binding makes no difference to a look-up that does not ask its
  scope;
* `lookup_bindParams` — what a call binds are its arguments.
-/

namespace Store

/-- The value of a name in one scope. -/
def binding? (s : Store) (i : ScopeId) (name : String) : Option Value :=
  (s.scopes.getD i []).lookup name

variable {s : Store} {i j : ScopeId} {x y : String} {v : Value} {path : List ScopeId}

/-- A name is looked up in the innermost scope first. -/
theorem get?_cons : s.get? (i :: path) x = (s.binding? i x).or (s.get? path x) := by
  rw [get?, binding?]
  cases (s.scopes.getD i []).lookup x <;> rfl

/-- What is found along a path is what the first of its scopes has that has anything. -/
theorem get?_eq_findSome? : s.get? path x = path.findSome? (s.binding? · x) := by
  induction path with
  | nil => rfl
  | cons i path ih =>
    rw [get?_cons, ih, List.findSome?_cons]
    cases s.binding? i x <;> rfl

/-- What is found along a path is bound in one of its scopes. -/
theorem binding?_of_get? (h : s.get? path x = some v) : ∃ i ∈ path, s.binding? i x = some v := by
  rw [get?_eq_findSome?] at h
  exact List.exists_of_findSome?_eq_some h

/-- A scope that is not there binds nothing. -/
theorem binding?_of_size_le (hi : s.scopes.size ≤ i) (x : String) : s.binding? i x = none := by
  simp [binding?, Array.getD_eq_getD_getElem?, Array.getElem?_eq_none hi]

/-- A binding changes one name of one scope. -/
theorem binding?_set : (s.set i x v).binding? j y =
    if j = i ∧ y = x ∧ i < s.scopes.size then some v else s.binding? j y := by
  simp only [binding?, set, Array.getD_eq_getD_getElem?, Array.getElem?_modify]
  -- A scope that is not there stays away, and the binding is lost.
  by_cases hij : i = j
  · subst hij
    by_cases hi : i < s.scopes.size
    · simp only [if_true, Array.getElem?_eq_getElem hi, Option.map_some, Option.getD_some, true_and]
      by_cases hy : y = x
      · rw [if_pos ⟨hy, hi⟩, hy, Bindings.lookup_set_self]
      · rw [if_neg (fun h => hy h.1), Bindings.lookup_set_of_ne hy]
    · simp [hi]
  · rw [if_neg hij, if_neg (fun h => hij h.1.symm)]

/-- A binding in a scope that is not asked makes no difference. -/
theorem get?_set_of_notMem (hj : j ∉ path) (y : String) (v : Value) :
    (s.set j y v).get? path x = s.get? path x := by
  induction path with
  | nil => rfl
  | cons i path ih =>
    rw [List.mem_cons, not_or] at hj
    obtain ⟨hne, hpath⟩ := hj
    have hi : (s.set j y v).binding? i x = s.binding? i x := by
      rw [binding?_set, if_neg fun hij => hne hij.1.symm]
    rw [get?_cons, get?_cons, hi, ih hpath]

/-- A new scope is behind the others and has its own bindings. -/
theorem binding?_alloc {outer : List ScopeId} {b : Bindings} : (s.alloc outer b).2.binding? j y =
    if j = s.scopes.size then b.lookup y else s.binding? j y := by
  simp only [binding?, alloc, Array.getD_eq_getD_getElem?, Array.getElem?_push]
  split <;> simp_all

@[simp] theorem size_set : (s.set i x v).scopes.size = s.scopes.size := by simp [set]

@[simp] theorem size_alloc {outer : List ScopeId} {b : Bindings} :
    (s.alloc outer b).2.scopes.size = s.scopes.size + 1 := by simp [alloc]

@[simp] theorem binding?_logCall {c : Closure} {n : Nat} :
    (s.logCall c n).binding? i x = s.binding? i x := rfl

end Store

/-! ### The bindings of a call -/

/-- A name that is bound among others had its value before, or has one of the new values. -/
theorem lookup_foldl_set {ps : List (Ident × Value)} {b : Bindings} {y : String} {v : Value}
    (h : (ps.foldl (fun b p => b.set p.1.name p.2) b).lookup y = some v) :
    (∃ p ∈ ps, p.2 = v) ∨ b.lookup y = some v := by
  -- The arguments are bound one after another, so an earlier one may be covered.
  induction ps generalizing b with
  | nil => exact .inr h
  | cons p ps ih =>
    rcases ih h with ⟨q, hq, hv⟩ | hb
    · exact .inl ⟨q, List.mem_cons_of_mem p hq, hv⟩
    · by_cases hy : y = p.1.name
      · rw [hy, Bindings.lookup_set_self, Option.some.injEq] at hb
        exact .inl ⟨p, List.mem_cons_self, hb⟩
      · rw [Bindings.lookup_set_of_ne hy] at hb
        exact .inr hb

/-- **What a call binds are its arguments.** -/
theorem lookup_bindParams {ps : List Ident} {vs : List Value} {y : String} {v : Value}
    (h : (bindParams ps vs).lookup y = some v) : v ∈ vs := by
  rcases lookup_foldl_set h with ⟨p, hp, rfl⟩ | hb
  · exact (List.of_mem_zip hp).2
  · simp at hb

end Incognita
