import Incognita.Proofs.Stacks.Machine

namespace Incognita

/-!
# Parser — actions beside attempts

An action changes the cursor and the stack; an attempt takes tokens and gives a step.  Here is what
it means that they agree, and how that is shown for actions that are built from others: there is one
rule for each way to build them.

* `Place.Faces`, `Place.At` — the tokens ahead of the cursor, and those from the current one on;
* `Place.Onward` — the moves that the cursor makes;
* `Machine.Steady`, `Machine.Within` — no count is negative, and so many loops are open;
* `Leads` — how the state changes while something is read;
* `Act.Agrees` — an action gives what an attempt gives;
* `Act.Agrees.withinLoop`, `Act.Agrees.withinFunction` — inside, the stack is another one, and
  afterwards it is the old one again.
-/

/-- A call of the lexer gives the first token of those that are left, and leaves the others. -/
theorem Token.next_tokenize (source : List Char) :
    (next source).1 = (tokenize source).headD eof ∧
      tokenize (next source).2 = (tokenize source).tail := by
  cases h : next? source with
  | none =>
    rw [next_of_none h, tokenize_of_none h]
    exact ⟨rfl, tokenize_of_none rfl⟩
  | some p =>
    rw [next_of_some h, tokenize_of_next h]
    exact ⟨rfl, rfl⟩

/-- Every token takes a character at least. -/
theorem length_tokenize_le (source : List Char) : (tokenize source).length ≤ source.length := by
  fun_induction tokenize source with
  | case1 => exact Nat.zero_le _
  | case2 source t rest hnext ih =>
    have hlt := Token.length_next? hnext
    rw [List.length_cons]
    omega

namespace Parser

/-! ### The cursor -/

namespace Place

/-- The tokens ahead of the cursor, up to the end of the source. -/
structure Faces (p : Place) (ts : List Token) : Prop where
  /-- The first of them is the token ahead of the cursor. -/
  ahead : p.ahead = ts.headD .eof
  /-- The others are still to be cut from the source. -/
  source : tokenize p.source = ts.tail
  /-- None of them is the end of the source, which comes behind them for ever. -/
  noEnd : ∀ t ∈ ts, t.kind ≠ .eof

/-- The tokens from the current one on, up to the end of the source. -/
structure At (p : Place) (ts : List Token) : Prop where
  current : p.current = ts.headD .eof
  faces : p.Faces ts.tail
  noEnd : ∀ t ∈ ts, t.kind ≠ .eof

/-- The second place is the first one or comes behind it. -/
inductive Onward (p : Place) : Place → Prop
  | here : Onward p p
  | next {q : Place} (h : Onward p q) : Onward p q.next

/-- A place behind one that is behind another is behind that one. -/
theorem Onward.trans {p q r : Place} (h : p.Onward q) (h' : q.Onward r) : p.Onward r := by
  induction h' with
  | here => exact h
  | next _ ih => exact ih.next

namespace Faces

variable {p : Place} {ts : List Token}

/-- The token ahead has the kind that `peek` tells, and that of the end if there is none. -/
theorem kind_ahead (h : p.Faces ts) : p.ahead.kind = peek ts := by
  rw [h.ahead]
  cases ts <;> rfl

/-- Moving on makes the token ahead the current one. -/
theorem next (h : p.Faces ts) : p.next.At ts := by
  obtain ⟨hfirst, hrest⟩ := Token.next_tokenize p.source
  refine ⟨h.ahead, ⟨?_, ?_, ?_⟩, h.noEnd⟩
  · rw [← h.source]
    exact hfirst
  · rw [← h.source]
    exact hrest
  · exact fun t ht => h.noEnd t (List.mem_of_mem_tail ht)

/-- There are no more tokens than characters, the token ahead apart. -/
theorem length_le (h : p.Faces ts) : ts.length ≤ p.source.length + 1 := by
  have hle := length_tokenize_le p.source
  rw [h.source, List.length_tail] at hle
  omega

end Faces

end Place

/-! ### The state -/

namespace Machine

def advanced (m : Machine) : Machine := { m with place := m.place.next }

def reported (m : Machine) (d : Diagnostic) : Machine := { m with faults := m.faults ++ [d] }

def withFrames (m : Machine) (frames : List Frame) : Machine :=
  { m with frames := frames, history := frames :: m.history }

/-- No count of loops is negative, nor was there one that was. -/
def Steady (m : Machine) : Prop := ∀ frames ∈ m.frames :: m.history, ∀ f ∈ frames, 0 ≤ f.loops

/-- A stack with no negative count may replace another one. -/
theorem Steady.withFrames {m : Machine} {frames : List Frame} (h : m.Steady)
    (hframes : ∀ f ∈ frames, 0 ≤ f.loops) : (m.withFrames frames).Steady := by
  intro frames' hmem
  rcases List.mem_cons.1 hmem with rfl | hmem
  · exact hframes
  rcases List.mem_cons.1 hmem with rfl | hmem
  · exact hframes
  · exact h frames' (List.mem_cons_of_mem _ hmem)

/-- A function is open, and so many of its loops are. -/
structure Within (m : Machine) (loops : Nat) : Prop where
  /-- The innermost frame counts so many loops. -/
  frames : ∃ f fs, m.frames = f :: fs ∧ f.loops = loops
  steady : m.Steady

end Machine

/-- From the first state to the second one so much is read that `rest` is left, and these faults
    are met.  The stack is what it was. -/
structure Leads (m : Machine) (rest : List Token) (faults : List Diagnostic) (m' : Machine) :
    Prop where
  /-- These tokens are left. -/
  faces : m'.place.Faces rest
  /-- These faults have been added. -/
  faults_eq : m'.faults = m.faults ++ faults
  /-- All frames have been left that were entered. -/
  frames_eq : m'.frames = m.frames
  /-- The cursor has not gone back. -/
  onward : m.place.Onward m'.place
  /-- No count has become negative on the way. -/
  steady : m.Steady → m'.Steady

namespace Leads

variable {m m' m'' : Machine} {ts rest : List Token} {faults faults' : List Diagnostic}

/-- Nothing is read. -/
theorem refl (h : m.place.Faces ts) : Leads m ts [] m where
  faces := h
  faults_eq := (List.append_nil _).symm
  frames_eq := rfl
  onward := .here
  steady := id

/-- What is read first and then is read altogether. -/
theorem trans (h : Leads m ts faults m') (h' : Leads m' rest faults' m'') :
    Leads m rest (faults ++ faults') m'' where
  faces := h'.faces
  faults_eq := by rw [h'.faults_eq, h.faults_eq, List.append_assoc]
  frames_eq := h'.frames_eq.trans h.frames_eq
  onward := h.onward.trans h'.onward
  steady := h'.steady ∘ h.steady

/-- One more token is read. -/
theorem advance (h : Leads m ts faults m') : Leads m ts.tail faults m'.advanced where
  faces := h.faces.next.faces
  faults_eq := h.faults_eq
  frames_eq := h.frames_eq
  onward := h.onward.next
  steady := h.steady

/-- One more fault is met. -/
theorem report (h : Leads m ts faults m') (d : Diagnostic) :
    Leads m ts (faults ++ [d]) (m'.reported d) where
  faces := h.faces
  faults_eq := by
    show m'.faults ++ [d] = _
    rw [h.faults_eq, List.append_assoc]
  frames_eq := h.frames_eq
  onward := h.onward
  steady := h.steady

/-- Reading leaves the innermost frame as it was, with its count of loops. -/
theorem within {loops : Nat} (h : Leads m ts faults m') (hw : m.Within loops) :
    m'.Within loops where
  frames := h.frames_eq ▸ hw.frames
  steady := h.steady hw.steady

end Leads

/-! ### Actions and attempts -/

namespace Act

/-- In the state `m` the action gives what the attempt gives, and changes the state as the attempt
    says.  The tokens and faults of the attempt are counted from the state `m₀`. -/
def Agrees {α : Type} (m₀ : Machine) (act : Act α) (m : Machine) (o : Option (Step α)) : Prop :=
  ∀ s, o = some s → ∃ m', act m = .ok (s.value, m') ∧ Leads m₀ s.rest s.faults m'

section

variable {α β : Type} {m₀ m₁ m : Machine} {o : Option (Step β)}

/-- An attempt that reaches its bound says nothing. -/
theorem agrees_none (m₀ m : Machine) (act : Act α) : Agrees m₀ act m none := nofun

@[simp] theorem get_bind {f : Machine → Act β} :
    Agrees m₀ (get >>= f) m o ↔ Agrees m₀ (f m) m o := Iff.rfl

@[simp] theorem current_bind {f : Token → Act β} :
    Agrees m₀ (current >>= f) m o ↔ Agrees m₀ (f m.place.current) m o := Iff.rfl

@[simp] theorem ahead_bind {f : Token → Act β} :
    Agrees m₀ (ahead >>= f) m o ↔ Agrees m₀ (f m.place.ahead) m o := Iff.rfl

/-- Advancing moves the cursor and does nothing else. -/
@[simp] theorem advance_bind {f : Unit → Act β} :
    Agrees m₀ (advance >>= f) m o ↔ Agrees m₀ (f ()) m.advanced o := Iff.rfl

/-- An action that only gives a value agrees with an attempt that has read so far. -/
theorem Agrees.pure {v : α} {rest : List Token} {faults : List Diagnostic}
    (h : Leads m₀ rest faults m) : Agrees m₀ (Pure.pure v) m (some ⟨v, rest, faults⟩) := by
  rintro s ⟨⟩
  exact ⟨m, rfl, h⟩

/-- An action that does not fail, in front of others. -/
theorem bind_of_run {x : Act α} {f : α → Act β} {a : α} {m' : Machine}
    (h : x m = .ok (a, m')) : Agrees m₀ (x >>= f) m o ↔ Agrees m₀ (f a) m' o := by
  have hbind : (x >>= f) m = f a m' := by
    show Except.bind (x m) _ = _
    rw [h]
    rfl
  rw [Agrees, Agrees, hbind]

/-- An action whose attempt gives something, in front of others. -/
theorem Agrees.bind_some {x : Act α} {f : α → Act β} {s : Step α} (hx : Agrees m₁ x m (some s))
    (hf : ∀ m', Leads m₁ s.rest s.faults m' → Agrees m₀ (f s.value) m' o) :
    Agrees m₀ (x >>= f) m o := by
  obtain ⟨m', hact, hlead⟩ := hx s rfl
  rw [bind_of_run hact]
  exact hf m' hlead

/-- **Actions agree in a row if each of them does**, the second one from where the first one
    leads. -/
theorem Agrees.bind {x : Act α} {f : α → Act β} {o : Option (Step α)}
    {g : Step α → Option (Step β)} (hx : Agrees m₁ x m o)
    (hf : ∀ s m', Leads m₁ s.rest s.faults m' → Agrees m₀ (f s.value) m' (g s)) :
    Agrees m₀ (x >>= f) m (o.bind g) := by
  cases o with
  | none => exact agrees_none _ _ _
  | some s => exact hx.bind_some (hf s)

/-- What was read before comes in front of what an action reads. -/
theorem Agrees.after {x : Act α} {o : Option (Step α)} {ts : List Token}
    {faults : List Diagnostic} (h : Leads m₀ ts faults m) (hx : Agrees m x m o) :
    Agrees m₀ x m (o.bind fun w => some (w.after faults)) := by
  intro s hs
  obtain ⟨w, hw, hs⟩ := Option.bind_eq_some_iff.1 hs
  obtain ⟨m', hact, hlead⟩ := hx w hw
  obtain rfl := Option.some.inj hs
  exact ⟨m', hact, h.trans hlead⟩

/-- What is counted from a state may be counted from an earlier one, with nothing in between. -/
theorem Agrees.rebase {x : Act α} {o : Option (Step α)} {ts : List Token}
    (h : Leads m₀ ts [] m) (hx : Agrees m x m o) : Agrees m₀ x m o := by
  intro s hs
  obtain ⟨m', hact, hlead⟩ := hx s hs
  exact ⟨m', hact, h.trans hlead⟩

/-! ### Tokens that are taken if they come next -/

variable {k : Token.Kind} {x y : Act β} {ts : List Token}

/-- A test of the kind ahead that succeeds. -/
theorem ahead_pos (h : m.place.Faces ts) (hk : peek ts = k) :
    Agrees m₀ (ahead >>= fun t => if t.kind = k then x else y) m o ↔ Agrees m₀ x m o := by
  rw [ahead_bind, if_pos (h.kind_ahead.trans hk)]

/-- A test of the kind ahead that fails. -/
theorem ahead_neg (h : m.place.Faces ts) (hk : peek ts ≠ k) :
    Agrees m₀ (ahead >>= fun t => if t.kind = k then x else y) m o ↔ Agrees m₀ y m o := by
  rw [ahead_bind, h.kind_ahead, if_neg hk]

/-- `consume` reads a token of the kind that it expects. -/
theorem consume_pos (h : m.place.Faces ts) (hk : peek ts = k) :
    Agrees m₀ (consume k >>= fun b => if b then x else y) m o ↔ Agrees m₀ x m.advanced o := by
  refine bind_of_run (a := true) ?_
  show (if m.place.ahead.kind = k then _ else _ : Act Bool) m = _
  rw [if_pos (h.kind_ahead.trans hk)]
  rfl

/-- `consume` reports any other one, and does not read it. -/
theorem consume_neg (h : m.place.Faces ts) (hk : peek ts ≠ k) :
    Agrees m₀ (consume k >>= fun b => if b then x else y) m o ↔
      Agrees m₀ y (m.reported (unexpected k ts)) o := by
  refine bind_of_run (a := false) ?_
  show (if m.place.ahead.kind = k then _ else _ : Act Bool) m = _
  rw [h.kind_ahead, if_neg hk]
  rfl

/-- A semicolon ahead is skipped just as it is in front of the tokens that are left. -/
theorem Agrees.skip {rest : List Token} {faults : List Diagnostic} {f : Unit → Act β}
    (h : Leads m₀ rest faults m)
    (hf : ∀ m', Leads m₀ (skipSemicolon rest) faults m' → Agrees m₀ (f ()) m' o) :
    Agrees m₀ (Act.skip >>= f) m o := by
  -- Whether a semicolon is there, the token ahead tells as `peek` does.
  by_cases hk : peek rest = .semicolon
  · have hskip : skipSemicolon rest = rest.tail := by
      cases rest with
      | nil => rfl
      | cons t ts => exact if_pos hk
    refine (bind_of_run ?_).2 (hf m.advanced (by rw [hskip]; exact h.advance))
    show (if m.place.ahead.kind = .semicolon then _ else _ : Act Unit) m = _
    rw [if_pos (h.faces.kind_ahead.trans hk)]
    rfl
  · have hskip : skipSemicolon rest = rest := by
      cases rest with
      | nil => rfl
      | cons t ts => exact if_neg hk
    refine (bind_of_run ?_).2 (hf m (by rw [hskip]; exact h))
    show (if m.place.ahead.kind = .semicolon then _ else _ : Act Unit) m = _
    rw [h.faces.kind_ahead, if_neg hk]
    rfl

end

/-! ### The stack -/

section

variable {α : Type} {m : Machine} {loops : Nat} {f : Frame} {fs : List Frame} {act : Act α}
  {o : Option (Step α)}

/-- `addLoops` changes the count of the innermost frame only. -/
theorem addLoops_run (h : m.frames = f :: fs) (n : Int) :
    addLoops n m = .ok ((), m.withFrames ({ f with loops := f.loops + n } :: fs)) := by
  obtain ⟨place, faults, frames, history⟩ := m
  obtain rfl : frames = f :: fs := h
  rfl

/-- `leaveFunction` drops the innermost frame. -/
theorem leaveFunction_run (h : m.frames = f :: fs) :
    leaveFunction m = .ok ((), m.withFrames fs) := by
  obtain ⟨place, faults, frames, history⟩ := m
  obtain rfl : frames = f :: fs := h
  rfl

/-- `insideLoop` compares the count of the innermost frame with zero. -/
theorem insideLoop_run (h : m.frames = f :: fs) :
    insideLoop m = .ok (decide (f.loops ≠ 0), m) := by
  obtain ⟨place, faults, frames, history⟩ := m
  obtain rfl : frames = f :: fs := h
  rfl

/-- `checkBreak` reports a break outside of loops. -/
theorem checkBreak_run (h : m.Within loops) :
    checkBreak m = .ok ((), if loops = 0 then m.reported .strayBreak else m) := by
  obtain ⟨f, fs, hframes, hloops⟩ := h.frames
  show Except.bind (insideLoop m) _ = _
  rw [insideLoop_run hframes, hloops]
  by_cases hz : loops = 0
  · subst hz
    rfl
  · have hd : decide ((loops : Int) ≠ 0) = true := by simp [hz]
    rw [hd, if_neg hz]
    rfl

/-- An action between two others that put a stack in place and the old one back. -/
theorem Agrees.around {enter leave : Act Unit} {frames : List Frame} (hs : m.Steady)
    (hframes : ∀ f ∈ frames, 0 ≤ f.loops) (hin : enter m = .ok ((), m.withFrames frames))
    (hout : ∀ m' : Machine, m'.frames = frames → leave m' = .ok ((), m'.withFrames m.frames))
    (h : Agrees (m.withFrames frames) act (m.withFrames frames) o) :
    Agrees m (do enter; let a ← act; leave; return a) m o := by
  rw [bind_of_run hin]
  intro s hs'
  obtain ⟨m', hact, hlead⟩ := h s hs'
  -- What was entered is left again in whatever state the action ends.
  refine ⟨m'.withFrames m.frames, ?_, ?_⟩
  · show Except.bind (act _) _ = _
    rw [hact]
    show Except.bind (leave m') _ = _
    rw [hout m' hlead.frames_eq]
    rfl
  · exact {
      faces := hlead.faces
      faults_eq := hlead.faults_eq
      frames_eq := rfl
      onward := hlead.onward
      steady := fun _ =>
        (hlead.steady (hs.withFrames hframes)).withFrames (hs _ List.mem_cons_self) }

/-- What is read inside a loop agrees if it does with one more loop open. -/
theorem Agrees.withinLoop (hw : m.Within loops)
    (h : ∀ m₁ : Machine, m₁.place = m.place → m₁.Within (loops + 1) → Agrees m₁ act m₁ o) :
    Agrees m (Act.withinLoop act) m o := by
  obtain ⟨f, fs, hframes, hloops⟩ := hw.frames
  have hnonneg : ∀ f' ∈ ({ f with loops := f.loops + 1 } : Frame) :: fs, 0 ≤ f'.loops := by
    intro f' hf'
    rcases List.mem_cons.1 hf' with rfl | hf'
    · show 0 ≤ f.loops + 1
      omega
    · exact hw.steady m.frames List.mem_cons_self f' (hframes ▸ List.mem_cons_of_mem _ hf')
  refine .around hw.steady hnonneg (addLoops_run hframes 1) (fun m' hm' => ?_) ?_
  · -- The count that was raised is the old one again.
    have hout := addLoops_run hm' (-1)
    simp only [Int.add_neg_cancel_right] at hout
    rw [hframes]
    exact hout
  · exact h _ rfl ⟨⟨_, fs, rfl, by rw [hloops]; rfl⟩, hw.steady.withFrames hnonneg⟩

/-- What is read inside a function agrees if it does with none of its loops open. -/
theorem Agrees.withinFunction {function : String} (hs : m.Steady)
    (h : ∀ m₁ : Machine, m₁.place = m.place → m₁.Within 0 → Agrees m₁ act m₁ o) :
    Agrees m (Act.withinFunction function act) m o := by
  have hnonneg : ∀ f ∈ (⟨function, 0⟩ : Frame) :: m.frames, 0 ≤ f.loops := by
    intro f hf
    rcases List.mem_cons.1 hf with rfl | hf
    · exact Int.le_refl 0
    · exact hs m.frames List.mem_cons_self f hf
  refine .around hs hnonneg rfl (fun m' hm' => leaveFunction_run hm') ?_
  exact h _ rfl ⟨⟨_, m.frames, rfl, rfl⟩, hs.withFrames hnonneg⟩

end

end Act

end Parser

end Incognita
