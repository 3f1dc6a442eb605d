import Incognita.Proofs.Bounds
import Incognita.Proofs.Stacks.Agreement

namespace Incognita

/-!
# Parser — reading ends, and every stack is left as it was

Whatever the source, reading it ends, at its end.  The cursor never goes back, and every reading
function leaves the stack of loops as it found it, whether or not it met a fault.  So no frame is
ever asked of an empty stack, and no count of loops is ever negative.

* `Machine.program_stops` — statements are read up to the end of the source and no less;
* `Machine.whole_ends` — reading a source with a cursor and a stack ends, with what `parse` gives;
* `Call` — a reading function with what it is given apart from the state;
* `Machine.Midway`, `Machine.Keeps` — a state in which a source is being read, and what reading on
  leaves as it was;
* `Call.settles` — every reading function ends in every such state, and keeps all that;
* `reading_balanced` — both, for every source.
-/

/-- A call of the lexer leaves an end of the source. -/
theorem Token.next_suffix (source : List Char) : (next source).2 <:+ source := by
  cases h : next? source with
  | none =>
    rw [next_of_none h]
    exact List.nil_suffix
  | some p =>
    rw [next_of_some h]
    rw [next?] at h
    split at h
    · exact absurd h (by simp)
    · next c cs hdrop =>
      obtain rfl := Option.some.inj h
      have hscan : (scan c cs).2 <:+ c :: cs := ⟨_, (cutOff_scan c cs).text⟩
      rw [← hdrop] at hscan
      exact hscan.trans (List.dropWhile_suffix _)

namespace Parser

open Act

/-! ### Whole sources -/

namespace Place

variable {p q : Place}

/-- What is behind a later place is an end of what was behind the earlier one. -/
theorem Onward.source_suffix (h : p.Onward q) : q.source <:+ p.source := by
  induction h with
  | here => exact List.suffix_refl _
  | next _ ih => exact (Token.next_suffix _).trans ih

/-- The cursor starts with the first token of the source. -/
theorem at_start (source : List Char) : (start source).At (tokenize source) := by
  obtain ⟨hfirst, hrest⟩ := Token.next_tokenize source
  refine Faces.next ⟨hfirst, hrest, fun t ht => kind_ne_eof_of_mem_tokenize ht⟩

/-- Wherever the cursor moves in a source, some tokens are left from there on. -/
theorem Onward.at_of_at {ts : List Token} (h : p.Onward q) (hat : p.At ts) : ∃ ts', q.At ts' := by
  induction h with
  | here => exact ⟨ts, hat⟩
  | next _ ih =>
    obtain ⟨ts', hat'⟩ := ih
    exact ⟨ts'.tail, hat'.faces.next⟩

end Place

namespace Machine

/-- Programs are read alike, statement by statement. -/
theorem program_agrees {fuel : Nat} {ts : List Token} {m : Machine} (h : m.place.At ts)
    (hw : m.Within 0) : Agrees m (Machine.program fuel) m (Parser.program fuel ts) := by
  induction fuel generalizing ts m with
  | zero =>
    rw [Parser.program]
    exact agrees_none _ _ _
  | succ fuel ih =>
    rw [Machine.program, current_bind, h.current]
    cases ts with
    | nil =>
      rw [Parser.program]
      exact .pure (.refl h.faces)
    | cons t ts =>
      rw [Parser.program, List.headD_cons, if_neg (h.noEnd t List.mem_cons_self)]
      -- The statement stops at its last token, and `advance` goes on from there.
      refine .bind (Task.act_agrees fuel (.stmt 0 t ts) m ⟨h.current, h.faces⟩ hw)
        fun s m₁ h₁ => ?_
      have h₂ := h₁.advance
      rw [advance_bind]
      exact .bind (ih h₁.faces.next (h₂.within hw)) fun ss m₃ h₃ => .pure (h₂.trans h₃)

/-- An action that gives something after others made these give something before. -/
theorem bind_inv {α β : Type} {x : Act α} {f : α → Act β} {m m'' : Machine} {b : β}
    (h : (x >>= f) m = .ok (b, m'')) : ∃ a m', x m = .ok (a, m') ∧ f a m' = .ok (b, m'') := by
  change Except.bind (x m) _ = _ at h
  cases hx : x m with
  | error e =>
    rw [hx] at h
    exact absurd h (by simp [Except.bind])
  | ok p =>
    rw [hx] at h
    exact ⟨p.1, p.2, rfl, h⟩

/-- Statements are read up to the end of the source. -/
theorem program_stops {fuel : Nat} {m m' : Machine} {ss : List Stmt}
    (h : Machine.program fuel m = .ok (ss, m')) : m'.place.current.kind = .eof := by
  induction fuel generalizing m ss with
  | zero => exact absurd h (by rw [Machine.program]; nofun)
  | succ fuel ih =>
    rw [Machine.program] at h
    obtain ⟨t, m₁, ht, h⟩ := bind_inv h
    obtain ⟨rfl, rfl⟩ : m.place.current = t ∧ m = m₁ := by cases ht; exact ⟨rfl, rfl⟩
    split at h
    · next hk =>
      cases h
      exact hk
    · obtain ⟨s, m₂, -, h⟩ := bind_inv h
      obtain ⟨-, m₃, -, h⟩ := bind_inv h
      obtain ⟨ss', m₄, hss, h⟩ := bind_inv h
      cases h
      exact ih hss

/-- Leaving a function does not move the cursor. -/
theorem leaveFunction_place {m m' : Machine} (h : leaveFunction m = .ok ((), m')) :
    m'.place = m.place := by
  cases hframes : m.frames with
  | nil =>
    obtain ⟨place, faults, frames, history⟩ := m
    obtain rfl : frames = [] := hframes
    exact absurd h nofun
  | cons f fs =>
    rw [leaveFunction_run hframes] at h
    cases h
    rfl

/-- At the start no function is open. -/
theorem steady_start (source : String) : ((start source).withFrames []).Steady := by
  intro frames hmem f hf
  have hempty : frames = [] := by simpa [withFrames, start] using hmem
  rw [hempty] at hf
  exact absurd hf List.not_mem_nil

/-- Reading a source with a cursor and a stack ends at the end of the source, with what `parse`
    gives. -/
theorem whole_ends {source : String} {fuel : Nat}
    (hfuel : enough (tokenize source.toList).length ≤ fuel) :
    ∃ m, Machine.whole fuel (.start source) = .ok ((parse source).program.stmts, m) ∧
      m.place.current.kind = .eof ∧
      Leads ((start source).withFrames []) [] (parse source).diagnostics m := by
  obtain ⟨s, hs, hrest⟩ := program_total hfuel
  have hparse : parse source = ⟨⟨s.value⟩, s.faults⟩ := parseTokens_eq_of_program hs
  have hwhole : Agrees ((start source).withFrames []) (withinFunction "" (Machine.program fuel))
      ((start source).withFrames []) (Parser.program fuel (tokenize source.toList)) := by
    refine .withinFunction (steady_start source) fun m hplace hw => program_agrees ?_ hw
    rw [hplace]
    exact Place.at_start _
  obtain ⟨m, hrun, hlead⟩ := hwhole s hs
  rw [hparse]
  rw [hrest] at hlead
  refine ⟨m, hrun, ?_, hlead⟩
  -- The statements are read to the end, and after them only the stack changes.
  obtain ⟨-, m₁, -, hrun⟩ := bind_inv hrun
  obtain ⟨ss, m₂, hprogram, hrun⟩ := bind_inv hrun
  obtain ⟨⟨⟩, m₃, hleave, hrun⟩ := bind_inv hrun
  cases hrun
  rw [leaveFunction_place hleave]
  exact program_stops hprogram

end Machine

/-! ### Every call -/

/-- A reading function, with what it is given apart from the state. -/
inductive Call where
  /-- Any power may be asked for but those below the lowest one. -/
  | expr (power : Power) (h : Power.lowest ≤ power)
  | operand
  /-- The same, behind a left operand. -/
  | operators (power : Power) (h : Power.lowest ≤ power) (left : Expr)
  | params
  | args
  | moreArgs
  | condition
  | choice (t : Token) (cond : Expr)
  | block
  | body
  | stmt

namespace Call

/-- What the function gives. -/
abbrev Result : Call → Type
  | expr .. | operand | operators .. | choice .. => Expr
  | params => Option (List Ident)
  | args | moreArgs => Option (List Expr)
  | condition => Option Expr
  | block => Block
  | body => List Stmt
  | stmt => Option Stmt

/-- The function under a bound. -/
def act (fuel : Nat) : (c : Call) → Act c.Result
  | expr power _ => Machine.expr fuel power
  | operand => Machine.operand fuel
  | operators power _ left => Machine.operators fuel power left
  | params => Machine.params
  | args => Machine.args fuel
  | moreArgs => Machine.moreArgs fuel
  | condition => Machine.condition fuel
  | choice t cond => Machine.choice fuel t cond
  | block => Machine.block fuel
  | body => Machine.body fuel
  | stmt => Machine.stmt fuel

end Call

namespace Machine

/-- A state in which the source is being read: the cursor is somewhere in it, and a function is
    open. -/
structure Midway (source : String) (m : Machine) : Prop where
  /-- The cursor has been moved on from the start of the source. -/
  place : (Place.start source.toList).Onward m.place
  /-- A function is open, the program itself at least. -/
  frames : m.frames ≠ []
  steady : m.Steady

/-- What reading leaves as it was.  The stack is the old one, the cursor did not go back, and no
    count of loops was negative on the way. -/
structure Keeps (m m' : Machine) : Prop where
  frames : m'.frames = m.frames
  onward : m.place.Onward m'.place
  /-- What is left of the source is an end of what was left. -/
  source : m'.place.source <:+ m.place.source
  steady : m'.Steady

end Machine

/-- The action gives something under every bound that is large enough, and keeps all that. -/
def Act.Settles {α : Type} (act : Nat → Act α) (m : Machine) : Prop :=
  ∃ bound, ∀ fuel ≥ bound, ∃ a m', act fuel m = .ok (a, m') ∧ m.Keeps m'

/-- Where the machine is led to, all is kept that reading keeps. -/
theorem Leads.keeps {m m' : Machine} {ts : List Token} {faults : List Diagnostic}
    (h : Leads m ts faults m') (hs : m.Steady) : m.Keeps m' where
  frames := h.frames_eq
  onward := h.onward
  source := h.onward.source_suffix
  steady := h.steady hs

/-- A call that starts where the machine is settles, because the attempt ends. -/
theorem Task.settles {m : Machine} (k : Task) (h : k.Starts m.place) (hw : m.Within k.loops) :
    Settles (fun fuel => k.act fuel) m := by
  refine ⟨k.need, fun fuel hfuel => ?_⟩
  obtain ⟨s, hs, -⟩ := run_total fuel k hfuel
  obtain ⟨m', hact, hlead⟩ := act_agrees fuel k m h hw s hs
  exact ⟨s.value, m', hact, hlead.keeps hw.steady⟩

/-- A block is read wherever the cursor stands, with the current token for its brace. -/
theorem Task.block_settles {m : Machine} {loops : Nat} {ts : List Token} (h : m.place.Faces ts)
    (hw : m.Within loops) : Settles Machine.block m := by
  refine ⟨(body loops ts).need + 1, fun fuel hfuel => ?_⟩
  obtain ⟨fuel, rfl⟩ : ∃ fuel', fuel = fuel' + 1 := ⟨fuel - 1, by omega⟩
  obtain ⟨s, hs, -⟩ := run_total fuel (body loops ts) (by omega)
  obtain ⟨m', hact, hlead⟩ := block_current (act_agrees fuel) h hw _
    (Option.bind_eq_some_iff.2 ⟨s, hs, rfl⟩)
  exact ⟨_, m', hact, hlead.keeps hw.steady⟩

/-- **Every reading function settles** in every state in which a source is being read.  The tokens
    in front of the cursor are those of an attempt, which ends, and the machine does what the
    attempt does. -/
theorem Call.settles {source : String} {m : Machine} (h : m.Midway source) (c : Call) :
    Settles (fun fuel => c.act fuel) m := by
  obtain ⟨ts, hat⟩ := h.place.at_of_at (Place.at_start source.toList)
  obtain ⟨f, fs, hframes⟩ := List.exists_cons_of_ne_nil h.frames
  have hnonneg : 0 ≤ f.loops := h.steady m.frames List.mem_cons_self f (by simp [hframes])
  -- The attempt counts loops in `Nat`, the frames count them in `Int`.
  have hw : m.Within f.loops.toNat :=
    ⟨⟨f, fs, hframes, (Int.toNat_of_nonneg hnonneg).symm⟩, h.steady⟩
  generalize f.loops.toNat = loops at hw
  cases c with
  | expr power hp => exact (Task.expr loops power ts).settles ⟨hp, hat.current, hat.faces⟩ hw
  | operand => exact (Task.operand loops m.place.current ts.tail).settles ⟨rfl, hat.faces⟩ hw
  | operators power hp left =>
    exact (Task.operators loops power left ts.tail).settles ⟨hp, hat.faces⟩ hw
  | params =>
    obtain ⟨m', hact, hlead⟩ := params_agrees hat.faces _ rfl
    exact ⟨0, fun _ _ => ⟨_, m', hact, hlead.keeps hw.steady⟩⟩
  | args => exact (Task.args loops ts.tail).settles hat.faces hw
  | moreArgs => exact (Task.moreArgs loops ts.tail).settles hat.faces hw
  | condition => exact (Task.condition loops ts.tail).settles hat.faces hw
  | choice t cond => exact (Task.choice loops t cond ts.tail).settles hat.faces hw
  | block => exact Task.block_settles hat.faces hw
  | body => exact (Task.body loops ts).settles hat hw
  | stmt => exact (Task.stmt loops m.place.current ts.tail).settles ⟨rfl, hat.faces⟩ hw

/-- **Reading ends, and every stack is left as it was.**  Every source is read to its end, with what
    `parse` gives, and no frame is left.  And wherever in a source a reading function is called, it
    gives something and leaves the stack as it found it.  On the way the cursor does not go back, no
    frame is asked of an empty stack, and no count of loops becomes negative. -/
theorem reading_balanced (source : String) :
    (∀ fuel ≥ enough (tokenize source.toList).length, ∃ m,
      Machine.whole fuel (.start source) = .ok ((parse source).program.stmts, m) ∧
      m.faults = (parse source).diagnostics ∧ m.place.current.kind = .eof ∧ m.frames = [] ∧
      (Machine.start source).Keeps m) ∧
    ∀ (m : Machine) (c : Call), m.Midway source → Settles (fun fuel => c.act fuel) m := by
  refine ⟨fun fuel hfuel => ?_, fun m c h => c.settles h⟩
  obtain ⟨m, hrun, heof, hlead⟩ := Machine.whole_ends hfuel
  have hkeeps := hlead.keeps (Machine.steady_start source)
  -- Before the stack is put in place there was none either.
  exact ⟨m, hrun, hlead.faults_eq, heof, hlead.frames_eq, hkeeps.frames, hkeeps.onward,
    hkeeps.source, hkeeps.steady⟩

/-- The state in the body of a loop, in front of a parenthesis that closes nothing and of no brace
    that closes the body. -/
def Machine.strayInLoop : Machine where
  place := (Place.start "mientras (a) \x7b )".toList).next.next.next.next.next
  frames := [⟨"", 1⟩]

/-- The body of `strayInLoop` is read in the middle of a source with faults. -/
theorem reading_balanced_strayInLoop :
    Machine.strayInLoop.Midway "mientras (a) \x7b )" ∧
      Settles (fun fuel => Call.body.act fuel) Machine.strayInLoop := by
  have hmidway : Machine.strayInLoop.Midway "mientras (a) \x7b )" := by
    refine ⟨.next (.next (.next (.next (.next .here)))), nofun, fun frames hmem f hf => ?_⟩
    obtain rfl : frames = [⟨"", 1⟩] := by simpa [Machine.strayInLoop] using hmem
    obtain rfl := List.mem_singleton.1 hf
    decide
  exact ⟨hmidway, (reading_balanced _).2 _ .body hmidway⟩

end Parser

end Incognita
