import Incognita.Proofs.Scopes

namespace Incognita

/-!
# Store — environments and the history of their names

Environments are made one inside another, and names are bound in them at any time: an environment
can be written long after others were made inside it.  What a name stands for in an environment
depends on all of that history.

* `History` — environments made and names bound, one after another;
* `History.run` — the environments of a history, and the store they bind names in;
* `History.outer?`, `History.Chain` — which environment is around which, and all that are
  around one;
* `History.binding?_run` — a scope holds what a name was last bound to there;
* `History.Answers` — a look-up that goes from each environment to the one around it;
* `History.answers_iff` — it ends, with what is found along the path of the environment;
* `History.get?_nearest_last` — which is what was bound last in the nearest environment.
-/

/-- Environments made and names bound in them, one after another, with the number of environments.
    Each of them is known by the number of those that were made before it. -/
inductive History : Nat → Type where
  /-- Nothing was made yet. -/
  | start : History 0
  /-- After a history, an environment was made, inside one that was there or inside none. -/
  | make {n : Nat} (h : History n) (outer : Option (Fin n)) : History (n + 1)
  /-- After a history, a name was bound in an environment that was there. -/
  | bind {n : Nat} (h : History n) (i : Fin n) (x : String) (v : Value) : History n

namespace History

/-! ### Carrying out a history -/

/-- Environments, and the store they bind names in. -/
structure Environments (n : Nat) where
  /-- The environments, in the order in which they were made. -/
  made : Vector Env n
  /-- What is bound in their scopes. -/
  store : Store

/-- The environments of a history, in order, and the store. -/
def run {n : Nat} : History n → Environments n
  | start => ⟨#v[], {}⟩
  | make h outer =>
    let made := h.run.made
    let (env, store) := h.run.store.alloc (outer.elim [] fun o => (made.get o).path) []
    ⟨made.push env, store⟩
  | bind h i x v => ⟨h.run.made, h.run.store.set (h.run.made.get i).scope x v⟩

/-- An environment of a history. -/
def env {n : Nat} (h : History n) (i : Fin n) : Env := h.run.made.get i

/-- What a name stands for in an environment. -/
def get? {n : Nat} (h : History n) (i : Fin n) (x : String) : Option Value :=
  h.run.store.get? (h.env i).path x

/-! ### What a history says -/

/-- The environment that an environment was made in, if any. -/
def outer? {n : Nat} : History n → Nat → Option Nat
  | start, _ => none
  | @make n h outer, i => if i = n then outer.map Fin.val else h.outer? i
  | bind h _ _ _, i => h.outer? i

/-- A name that was bound to a value in an environment. -/
structure Write where
  /-- The environment whose scope takes the binding. -/
  env : Nat
  name : String
  value : Value

/-- All names that were bound, the latest first. -/
def writes {n : Nat} : History n → List Write
  | start => []
  | make h _ => h.writes
  | bind h i x v => ⟨i, x, v⟩ :: h.writes

variable {n : Nat} {i : Nat} {x : String} {v : Value}

/-- The name was ever bound in the environment. -/
def Bound (h : History n) (i : Nat) (x : String) : Prop := ∃ v, ⟨i, x, v⟩ ∈ h.writes

/-- The name was last bound to the value in the environment: it was, and never again. -/
def LastBound (h : History n) (i : Nat) (x : String) (v : Value) : Prop :=
  ∃ later earlier, h.writes = later ++ ⟨i, x, v⟩ :: earlier ∧ ∀ w, ⟨i, x, w⟩ ∉ later

/-- What the name was last bound to in the environment, if it ever was. -/
def last? (h : History n) (i : Nat) (x : String) : Option Value :=
  (h.writes.find? fun w => w.env = i ∧ w.name = x).map Write.value

/-- The step of `last?`: one more binding is the last one of its name in its environment, and of no
    interest to any other name or environment. -/
theorem last?_bind (h : History n) (j : Fin n) (y : String) :
    (h.bind j y v).last? i x = if i = j ∧ x = y then some v else h.last? i x := by
  simp only [last?, writes, List.find?_cons]
  by_cases hij : i = j ∧ x = y
  · obtain ⟨rfl, rfl⟩ := hij
    simp
  · rw [if_neg hij, decide_eq_false fun hji => hij ⟨hji.1.symm, hji.2.symm⟩]

/-- A name has no last value in an environment if none was ever bound to it there. -/
theorem last?_eq_none_iff {h : History n} : h.last? i x = none ↔ ¬ h.Bound i x := by
  rw [last?, Option.map_eq_none_iff, List.find?_eq_none, Bound]
  constructor
  · rintro hnone ⟨v, hv⟩
    exact hnone _ hv (by simp)
  · rintro hnone ⟨j, y, v⟩ hmem heq
    obtain ⟨rfl, rfl⟩ : j = i ∧ y = x := by simpa using heq
    exact hnone ⟨v, hmem⟩

/-- The last value of a name is that of a write to it behind which there is none, as `LastBound` has
    it. -/
theorem last?_eq_some_iff {h : History n} : h.last? i x = some v ↔ h.LastBound i x v := by
  rw [last?, Option.map_eq_some_iff, LastBound]
  constructor
  · rintro ⟨⟨j, y, w⟩, hfind, rfl⟩
    -- The latest write comes first in the list, so what is in front of it was written later.
    obtain ⟨heq, later, earlier, hwrites, hlater⟩ := List.find?_eq_some_iff_append.1 hfind
    obtain ⟨rfl, rfl⟩ : j = i ∧ y = x := by simpa using heq
    refine ⟨later, earlier, hwrites, fun w hw => ?_⟩
    have hno := hlater _ hw
    simp at hno
  · rintro ⟨later, earlier, hwrites, hlater⟩
    refine ⟨⟨i, x, v⟩, List.find?_eq_some_iff_append.2 ⟨by simp, later, earlier, hwrites, ?_⟩, rfl⟩
    rintro ⟨j, y, w⟩ hw
    have hne : ¬ (j = i ∧ y = x) := by
      rintro ⟨rfl, rfl⟩
      exact hlater w hw
    show (!decide (j = i ∧ y = x)) = true
    rw [decide_eq_false hne]
    rfl

/-! ### The scopes hold what was bound last -/

/-- A history has a scope for every environment. -/
@[simp] theorem size_run (h : History n) : h.run.store.scopes.size = n := by
  induction h with
  | start => rfl
  | make h outer ih => simp [run, ih]
  | bind h i x v ih => simp [run, ih]

/-- A new environment has a new scope, and around it are those of the one it was made in. -/
@[simp] theorem env_make_last (h : History n) (outer : Option (Fin n)) :
    (h.make outer).env (Fin.last n) = ⟨n, outer.elim [] fun o => (h.env o).path⟩ := by
  have hlast : (h.make outer).env (Fin.last n) =
      (h.run.store.alloc (outer.elim [] fun o => (h.env o).path) []).1 := Vector.getElem_push_last
  rw [hlast, Store.alloc, size_run]

/-- Making an environment leaves those before it as they are. -/
@[simp] theorem env_make_castSucc (h : History n) (outer : Option (Fin n)) (i : Fin n) :
    (h.make outer).env i.castSucc = h.env i := Vector.getElem_push_lt i.isLt

/-- So does binding a name. -/
@[simp] theorem env_bind (h : History n) (i j : Fin n) :
    (h.bind j x v).env i = h.env i := rfl

/-- An environment binds names in the scope of its own number. -/
@[simp] theorem scope_env (h : History n) (i : Fin n) : (h.env i).scope = i := by
  induction h with
  | start => exact i.elim0
  | make h outer ih =>
    cases i using Fin.lastCases with
    | last => rw [env_make_last, Fin.val_last]
    | cast i => rw [env_make_castSucc, ih, Fin.val_castSucc]
  | bind h j x v ih => exact ih i

/-- In an environment that is still to be made no name was bound. -/
theorem last?_of_le (h : History n) (hi : n ≤ i) : h.last? i x = none := by
  induction h with
  | start => rfl
  | make h outer ih => exact ih (by omega)
  | bind h j y v ih =>
    have hne : ¬ (i = j ∧ x = y) := by
      rintro ⟨rfl, -⟩
      exact absurd j.isLt (by omega)
    rw [last?_bind, if_neg hne, ih hi]

/-- **A scope holds what was bound last in it**, whatever was made or bound elsewhere since.  By
    induction on the history, where each event is compared with the environment and the name that
    are asked for. -/
theorem binding?_run (h : History n) : h.run.store.binding? i x = h.last? i x := by
  induction h with
  | start => exact Store.binding?_of_size_le (Nat.zero_le i) x
  | @make n h outer ih =>
    -- Making an environment allocates its scope, and binds nothing.
    have halloc : (h.make outer).run.store.binding? i x =
        if i = n then none else h.run.store.binding? i x := by
      rw [run, Store.binding?_alloc, size_run]
      rfl
    show (h.make outer).run.store.binding? i x = h.last? i x
    rw [halloc]
    by_cases hi : i = n
    · -- the new scope is empty, and its number could not be written before
      rw [if_pos hi, last?_of_le h (by omega)]
    · rw [if_neg hi, ih]
  | @bind n h j y v ih =>
    show (h.run.store.set (h.env j).scope y v).binding? i x = (h.bind j y v).last? i x
    have hj : (j : Nat) < n := j.isLt
    rw [Store.binding?_set, scope_env, size_run, last?_bind, ih]
    simp only [hj, and_true]

/-! ### Environments around environments -/

/-- From an environment out to the last one that has none around it, by way of all those
    that it is inside of. -/
inductive Chain (outer? : Nat → Option Nat) : Nat → List Nat → Prop where
  /-- Around the last environment there is none. -/
  | last {i : Nat} (hi : outer? i = none) : Chain outer? i [i]
  /-- The pointer leads on to the environment around it. -/
  | next {i j : Nat} {path : List Nat} (hi : outer? i = some j) (hj : Chain outer? j path) :
      Chain outer? i (i :: path)

/-- An environment is older than those made in it, so none is around itself. -/
theorem outer?_lt {h : History n} {j : Nat} (hj : h.outer? i = some j) : j < i := by
  induction h with
  | start => exact absurd hj nofun
  | @make n h outer ih =>
    rw [outer?] at hj
    split at hj
    · next hi =>
      obtain ⟨o, -, rfl⟩ := Option.map_eq_some_iff.1 hj
      have ho : (o : Nat) < n := o.isLt
      omega
    · exact ih hj
  | bind h k x v ih => exact ih hj

/-- What is made later changes nothing about the environments around an earlier one. -/
theorem Chain.make {h : History n} {path : List Nat} (outer : Option (Fin n)) (hi : i < n)
    (hc : Chain h.outer? i path) : Chain (h.make outer).outer? i path := by
  have hsame : ∀ {j}, j < n → (h.make outer).outer? j = h.outer? j := by
    intro j hj
    rw [outer?, if_neg (by omega)]
  induction hc with
  | last hnone => exact .last ((hsame hi).trans hnone)
  | next hsome hrest ih =>
    have hlt := outer?_lt hsome
    exact .next ((hsame hi).trans hsome) (ih (by omega))

/-- **The path of an environment is the chain of those around it.**  An environment is made behind
    those that it is made in, so the induction goes up the history. -/
theorem chain_path (h : History n) (i : Fin n) : Chain h.outer? i (h.env i).path := by
  -- a path is set down once, when its environment is made, and no later step changes the chain
  induction h with
  | start => exact i.elim0
  | @make n h outer ih =>
    cases i using Fin.lastCases with
    | last =>
      have houter : (h.make outer).outer? n = outer.map Fin.val := if_pos rfl
      rw [env_make_last, Fin.val_last, Env.path]
      cases outer with
      | none => exact .last houter
      | some o => exact .next houter ((ih o).make (some o) o.isLt)
    | cast i =>
      rw [env_make_castSucc]
      exact (ih i).make outer i.isLt
  | bind h j x v ih => exact ih i

/-! ### Look-up -/

/-- The answer of an environment to a look-up: what it has itself, or else the answer of the
    environment around it, or nothing if there is none. -/
inductive Answers (own : Nat → Option Value) (outer? : Nat → Option Nat) :
    Nat → Option Value → Prop where
  /-- The environment has the name itself. -/
  | own {i : Nat} {v : Value} (hi : own i = some v) : Answers own outer? i (some v)
  /-- It has not, and hands the question on. -/
  | ask {i j : Nat} {r : Option Value} (hi : own i = none) (hj : outer? i = some j)
      (hr : Answers own outer? j r) : Answers own outer? i r
  /-- It has not, and there is none to ask. -/
  | nowhere {i : Nat} (hi : own i = none) (hj : outer? i = none) : Answers own outer? i none

variable {own : Nat → Option Value} {outer? : Nat → Option Nat} {r r' : Option Value}

/-- **A look-up ends**, with what the first environment of the chain has that has anything.  The
    walk goes from an environment to the one around it, and has none left after as many steps as the
    chain is long. -/
theorem Chain.answers {path : List Nat} (hc : Chain outer? i path) :
    Answers own outer? i (path.findSome? own) := by
  induction hc with
  | @last i hnone =>
    rw [List.findSome?_cons]
    cases hown : own i with
    | none => exact .nowhere hown hnone
    | some v => exact .own hown
  | @next i j path hsome hrest ih =>
    rw [List.findSome?_cons]
    cases hown : own i with
    | none => exact .ask hown hsome ih
    | some v => exact .own hown

/-- A look-up has one answer. -/
theorem Answers.unique (h : Answers own outer? i r) (h' : Answers own outer? i r') : r = r' := by
  induction h with
  | own hi =>
    -- Where the name is bound, or not, decides which of the three rules applies.
    cases h' with
    | own hi' => exact hi.symm.trans hi'
    | ask hi' | nowhere hi' => exact absurd (hi.symm.trans hi') nofun
  | ask hi hj hr ih =>
    cases h' with
    | own hi' => exact absurd (hi.symm.trans hi') nofun
    | ask hi' hj' hr' =>
      rw [hj, Option.some.injEq] at hj'
      subst hj'
      exact ih hr'
    | nowhere hi' hj' => exact absurd (hj.symm.trans hj') nofun
  | nowhere hi hj =>
    cases h' with
    | own hi' => exact absurd (hi.symm.trans hi') nofun
    | ask hi' hj' => exact absurd (hj.symm.trans hj') nofun
    | nowhere => rfl

/-- What is found in an environment is what was bound last in the first one of its path that the
    name was bound in. -/
theorem get?_eq (h : History n) (i : Fin n) (x : String) :
    h.get? i x = (h.env i).path.findSome? (h.last? · x) := by
  rw [get?, Store.get?_eq_findSome?]
  simp only [binding?_run]

/-- The environments that ask each other give the answer that is found along the path. -/
theorem answers_iff (h : History n) (i : Fin n) (x : String) :
    Answers (h.run.store.binding? · x) h.outer? i r ↔ r = h.get? i x := by
  have hends : Answers (h.run.store.binding? · x) h.outer? i (h.get? i x) := by
    rw [get?, Store.get?_eq_findSome?]
    exact (h.chain_path i).answers
  constructor
  · intro hr
    exact hr.unique hends
  · rintro rfl
    exact hends

/-- **Environments are a stack of maps with a history.**  From every environment a chain leads out
    through those that it was made in, and a look-up along it ends.  It finds what the name was
    last bound to in the nearest environment that it was ever bound in, and nothing exactly if there
    is none in the chain.  No binding in an environment outside of the chain makes a difference. -/
theorem get?_nearest_last {n : Nat} (h : History n) (i : Fin n) :
    ∃ path, Chain h.outer? i path ∧
      (∀ x r, Answers (h.run.store.binding? · x) h.outer? i r ↔ r = h.get? i x) ∧
      (∀ x v, h.get? i x = some v ↔ ∃ near j far, path = near ++ j :: far ∧
        (∀ k ∈ near, ¬ h.Bound k x) ∧ h.LastBound j x v) ∧
      (∀ x, h.get? i x = none ↔ ∀ j ∈ path, ¬ h.Bound j x) ∧
      ∀ j : Fin n, ↑j ∉ path → ∀ y v x, (h.bind j y v).get? i x = h.get? i x := by
  refine ⟨(h.env i).path, h.chain_path i, fun x r => h.answers_iff i x, fun x v => ?_,
    fun x => ?_, fun j hj y v x => ?_⟩
  · rw [get?_eq, List.findSome?_eq_some_iff]
    simp only [last?_eq_none_iff, last?_eq_some_iff]
    constructor
    · rintro ⟨near, j, far, hpath, hlast, hnear⟩
      exact ⟨near, j, far, hpath, hnear, hlast⟩
    · rintro ⟨near, j, far, hpath, hnear, hlast⟩
      exact ⟨near, j, far, hpath, hlast, hnear⟩
  · rw [get?_eq, List.findSome?_eq_none_iff]
    simp only [last?_eq_none_iff]
  · have hscope : (h.env j).scope ∉ (h.env i).path := by rwa [scope_env]
    exact Store.get?_set_of_notMem hscope y v

/-- An environment with another one in it, in which there are two more.  The first one is written
    when all of them are there. -/
def lateWrites : History 4 :=
  .bind (.bind (.bind (.bind (.make (.make (.make (.make .start none) (some 0)) (some 1)) (some 1))
    0 "a" (.int 1)) 1 "b" (.int 2)) 2 "b" (.int 3)) 0 "a" (.int 4)

/-- The latest of two writes is found from everywhere, and each of the two innermost environments
    finds the nearest. -/
example : lateWrites.get? 2 "a" = some (.int 4) ∧ lateWrites.get? 2 "b" = some (.int 3) ∧
    lateWrites.get? 3 "b" = some (.int 2) ∧ lateWrites.get? 0 "b" = none :=
  ⟨rfl, rfl, rfl, rfl⟩

end History

end Incognita
