import Incognita.Proofs.Tasks

namespace Incognita

/-!
# Parser — a larger bound changes nothing

The bound on nesting only cuts a reading short.  A call that gives something under one bound gives
the same under every larger one, so two bounds that are both enough cannot be told apart.

* `Parser.Extends` — an attempt gives at least what another one gives;
* `Parser.Task.run_extends` — a call under a larger bound;
* `Parser.program_unique` — a source is read in one way only, whatever the bound;
* `parseTokens_eq_of_program` — so any bound under which a source is read tells what it spells.
-/

namespace Parser

/-- The second attempt gives what the first one gives, if that gives anything. -/
def Extends {α : Type} (o o' : Option α) : Prop := ∀ a, o = some a → o' = some a

namespace Extends

variable {α β : Type} {o o' : Option α}

/-- Every attempt gives what it gives, so `Extends` is reflexive.  This closes the cases in which
    the bound plays no part. -/
theorem refl (o : Option α) : Extends o o := fun _ h => h

/-- `Extends` is transitive, which takes a step of the bound to any number of steps. -/
theorem trans {o'' : Option α} (h : Extends o o') (h' : Extends o' o'') : Extends o o'' :=
  fun a ha => h' a (h a ha)

/-- What goes on with the result of an attempt. -/
theorem bind {f f' : α → Option β} (h : Extends o o') (hf : ∀ a, Extends (f a) (f' a)) :
    Extends (o.bind f) (o'.bind f') := by
  intro b hb
  obtain ⟨a, ha, hb⟩ := Option.bind_eq_some_iff.1 hb
  exact Option.bind_eq_some_iff.2 ⟨a, h a ha, hf a b hb⟩

end Extends

/-! ### One lemma for each function that makes calls -/

namespace Task

/-- Every call gives under the next larger bound what it gives under the bound `fuel`. -/
def AllExtend (fuel : Nat) : Prop := ∀ k : Task, Extends (k.run fuel) (k.run (fuel + 1))

section

variable {fuel loops : Nat} {power : Power} {t : Token} {left cond : Expr} {ts : List Token}

/-- `Parser.expr` makes two calls: its first operand, and the operators behind it. -/
theorem expr_extends (ih : AllExtend fuel) :
    Extends (Parser.expr (fuel + 1) loops power ts) (Parser.expr (fuel + 2) loops power ts) := by
  cases ts with
  | nil =>
    rw [Parser.expr, Parser.expr]
    exact .refl _
  | cons t ts =>
    rw [Parser.expr, Parser.expr]
    split
    · refine (ih (operand loops t ts)).bind fun left => ?_
      exact (ih (operators loops power left.value left.rest)).bind fun _ => .refl _
    · exact .refl _

/-- `Parser.operand` calls what the kind of its first token asks for: an operand of a sign, a
    grouped expression, a condition with what follows it, or the body of a function. -/
theorem operand_extends (ih : AllExtend fuel) :
    Extends (Parser.operand (fuel + 1) loops t ts) (Parser.operand (fuel + 2) loops t ts) := by
  -- The kinds of tokens that are an expression by themselves, or none, make no call.
  cases hk : t.kind <;> simp only [Parser.operand, hk] <;> try exact .refl _
  case bang | minus => exact (ih (expr loops Power.unary ts)).bind fun _ => .refl _
  case lparen => exact (ih (expr loops Power.lowest ts)).bind fun _ => .refl _
  case kwIf =>
    refine (ih (condition loops ts)).bind fun c => ?_
    split
    · exact .refl _
    · next cond _ => exact (ih (choice loops t cond c.rest)).bind fun _ => .refl _
  case kwWhile =>
    refine (ih (condition loops ts)).bind fun c => ?_
    split
    · exact .refl _
    · exact (ih (block (loops + 1) c.rest)).bind fun _ => .refl _
  case kwFunction =>
    split
    · exact .refl _
    · next ts' _ =>
      split
      · exact .refl _
      · exact (ih (block 0 (params ts').rest)).bind fun _ => .refl _

/-- `Parser.operators` goes on with arguments or with a right operand, and then with itself. -/
theorem operators_extends (ih : AllExtend fuel) :
    Extends (Parser.operators (fuel + 1) loops power left ts)
      (Parser.operators (fuel + 2) loops power left ts) := by
  cases ts with
  | nil =>
    rw [Parser.operators, Parser.operators]
    exact .refl _
  | cons t ts =>
    rw [Parser.operators, Parser.operators]
    -- The token may bind less tightly than `power`, and then nothing is called.
    split
    · split
      · refine (ih (args loops ts)).bind fun as => ?_
        exact (ih (operators loops power _ as.rest)).bind fun _ => .refl _
      · refine (ih (expr loops (Power.ofKind t.kind) ts)).bind fun right => ?_
        exact (ih (operators loops power _ right.rest)).bind fun _ => .refl _
    · exact .refl _

/-- `Parser.args` reads an expression and the arguments behind it, unless the list is empty. -/
theorem args_extends (ih : AllExtend fuel) :
    Extends (Parser.args (fuel + 1) loops ts) (Parser.args (fuel + 2) loops ts) := by
  rw [Parser.args, Parser.args]
  split
  · exact .refl _
  · refine (ih (expr loops Power.lowest ts)).bind fun e => ?_
    exact (ih (moreArgs loops e.rest)).bind fun _ => .refl _

/-- `Parser.moreArgs` does the same behind each comma. -/
theorem moreArgs_extends (ih : AllExtend fuel) :
    Extends (Parser.moreArgs (fuel + 1) loops ts) (Parser.moreArgs (fuel + 2) loops ts) := by
  cases ts with
  | nil =>
    rw [Parser.moreArgs, Parser.moreArgs]
    exact .refl _
  | cons t ts =>
    rw [Parser.moreArgs, Parser.moreArgs]
    split
    · refine (ih (expr loops Power.lowest ts)).bind fun e => ?_
      exact (ih (moreArgs loops e.rest)).bind fun _ => .refl _
    · exact .refl _

/-- `Parser.condition` reads one expression between its parentheses. -/
theorem condition_extends (ih : AllExtend fuel) :
    Extends (Parser.condition (fuel + 1) loops ts) (Parser.condition (fuel + 2) loops ts) := by
  rw [Parser.condition, Parser.condition]
  split
  · exact .refl _
  · next ts' _ => exact (ih (expr loops Power.lowest ts')).bind fun _ => .refl _

/-- `Parser.choice` reads a block, and a second one behind the keyword for it. -/
theorem choice_extends (ih : AllExtend fuel) :
    Extends (Parser.choice (fuel + 1) loops t cond ts)
      (Parser.choice (fuel + 2) loops t cond ts) := by
  rw [Parser.choice, Parser.choice]
  refine (ih (block loops ts)).bind fun a => ?_
  split
  · exact .refl _
  · split
    · exact .refl _
    · next ts' _ => exact (ih (block loops ts')).bind fun _ => .refl _

/-- `Parser.block` reads what is behind its opening brace. -/
theorem block_extends (ih : AllExtend fuel) :
    Extends (Parser.block (fuel + 1) loops ts) (Parser.block (fuel + 2) loops ts) := by
  cases ts with
  | nil =>
    rw [Parser.block, Parser.block]
    exact .refl _
  | cons t ts =>
    rw [Parser.block, Parser.block]
    split
    · exact (ih (body loops ts)).bind fun _ => .refl _
    · exact .refl _

/-- `Parser.body` reads a statement, and then the statements behind it. -/
theorem body_extends (ih : AllExtend fuel) :
    Extends (Parser.body (fuel + 1) loops ts) (Parser.body (fuel + 2) loops ts) := by
  cases ts with
  | nil =>
    rw [Parser.body, Parser.body]
    exact .refl _
  | cons t ts =>
    rw [Parser.body, Parser.body]
    split
    · exact .refl _
    · refine (ih (stmt loops t ts)).bind fun s => ?_
      exact (ih (body loops s.rest)).bind fun _ => .refl _

/-- `Parser.stmt` reads at most one expression, whichever of the four kinds of statements it is. -/
theorem stmt_extends (ih : AllExtend fuel) :
    Extends (Parser.stmt (fuel + 1) loops t ts) (Parser.stmt (fuel + 2) loops t ts) := by
  -- One case for each keyword that starts a statement, in the order in which they are looked at.
  by_cases hl : t.kind = .kwLet
  · cases ts with
    | nil =>
      simp only [Parser.stmt, hl]
      exact .refl _
    | cons name ts =>
      simp only [Parser.stmt, hl]
      split
      · split
        · exact .refl _
        · next ts' _ => exact (ih (expr loops Power.lowest ts')).bind fun _ => .refl _
      · exact .refl _
  by_cases hr : t.kind = .kwReturn
  · rw [stmt_of_kwReturn hr, stmt_of_kwReturn hr]
    split
    · exact .refl _
    · exact (ih (expr loops Power.lowest ts)).bind fun _ => .refl _
  by_cases hb : t.kind = .kwBreak
  · rw [stmt_of_kwBreak hb, stmt_of_kwBreak hb]
    exact .refl _
  rw [stmt_of_expr hl hr hb, stmt_of_expr hl hr hb]
  exact (ih (expr loops Power.lowest (t :: ts))).bind fun _ => .refl _

end

/-- **A call gives under the next larger bound what it gives under a bound.**  Every recursive call
    of the reader is made under one bound less, so the step only needs that `Option.bind` is
    monotone. -/
theorem run_succ_extends (fuel : Nat) : AllExtend fuel := by
  induction fuel with
  | zero =>
    intro k s h
    exact absurd h (by simp [run_zero])
  | succ fuel ih =>
    intro k
    cases k with
    | expr => exact expr_extends ih
    | operand => exact operand_extends ih
    | operators => exact operators_extends ih
    | args => exact args_extends ih
    | moreArgs => exact moreArgs_extends ih
    | condition => exact condition_extends ih
    | choice => exact choice_extends ih
    | block => exact block_extends ih
    | body => exact body_extends ih
    | stmt => exact stmt_extends ih

/-- A call gives under any larger bound what it gives under a bound: `run_succ_extends`, as often as
    the two bounds are apart. -/
theorem run_extends {fuel fuel' : Nat} (hle : fuel ≤ fuel') (k : Task) :
    Extends (k.run fuel) (k.run fuel') := by
  induction hle with
  | refl => exact .refl _
  | step _ ih => exact ih.trans (run_succ_extends _ k)

end Task

/-! ### Whole sources -/

/-- The next larger bound for a whole source, by induction on its statements. -/
theorem program_succ_extends (fuel : Nat) (ts : List Token) :
    Extends (program fuel ts) (program (fuel + 1) ts) := by
  induction fuel generalizing ts with
  | zero =>
    intro s h
    exact absurd h (by simp [program])
  | succ fuel ih =>
    cases ts with
    | nil =>
      rw [program, program]
      exact .refl _
    | cons t ts =>
      rw [program, program]
      refine (Task.run_succ_extends fuel (.stmt 0 t ts)).bind fun s => ?_
      exact (ih s.rest).bind fun _ => .refl _

/-- Any larger bound for a whole source. -/
theorem program_extends {fuel fuel' : Nat} (hle : fuel ≤ fuel') (ts : List Token) :
    Extends (program fuel ts) (program fuel' ts) := by
  induction hle with
  | refl => exact .refl _
  | step _ ih => exact ih.trans (program_succ_extends _ ts)

/-- **A source is read in one way only**, whatever the bounds under which it is read.  This is what
    makes it sound to speak of the tree of a source without naming a bound. -/
theorem program_unique {fuel fuel' : Nat} {ts : List Token} {s s' : Step (List Stmt)}
    (h : program fuel ts = some s) (h' : program fuel' ts = some s') : s = s' := by
  -- Both bounds are below their maximum, where the two readings have to agree.
  have hmax := program_extends (Nat.le_max_left fuel fuel') ts s h
  have hmax' := program_extends (Nat.le_max_right fuel fuel') ts s' h'
  exact Option.some.inj (hmax.symm.trans hmax')

end Parser

/-- Any bound under which tokens are read tells what they spell. -/
theorem parseTokens_eq_of_program {fuel : Nat} {ts : List Token} {s : Step (List Stmt)}
    (h : Parser.program fuel ts = some s) : parseTokens ts = ⟨⟨s.value⟩, s.faults⟩ := by
  -- The bound `Parser.enough` always gives something, so it gives what `fuel` gives.
  obtain ⟨s', hs', -⟩ := Parser.program_total (Nat.le_refl (Parser.enough ts.length))
  rw [parseTokens, hs', Parser.program_unique h hs']

end Incognita
