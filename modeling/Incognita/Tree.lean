import Incognita.Token

namespace Incognita

/-!
# Tree — programs as trees

A program is a list of statements, and statements hold expressions. Choices and
loops are expressions, and their bodies are blocks of statements. A tree may lack
parts: what a faulty source leaves open, and the optional parts of a sound one, is
`missing`. A tree that is put together by hand may also lack the name of a binding
or a parameter of a function.

* `Ident` — a name and the token it came from;
* `Ident.present?` — the parameters of a function that lacks none;
* `Expr`, `Stmt`, `Block` — the trees;
* `Program` — the statements of a source;
* `Node` — any tree: what can be written out and evaluated by itself;
* `Stmt.literal`, `Expr.literal`, `Block.literal`, `Program.literal` — the text of
  the token that a tree starts from.
-/

/-- A name and the token it came from. -/
structure Ident where
  token : Token
  name : String
  deriving DecidableEq, Repr, Inhabited

mutual

/-- An expression. Operators are kept as they were written. -/
inductive Expr where
  /-- No expression stands here. -/
  | missing
  /-- The value bound to a name. -/
  | ident (name : Ident)
  /-- An integer, without a value when its literal is out of range. -/
  | int (token : Token) (value : Option Int64)
  /-- A truth value. -/
  | bool (token : Token) (value : Bool)
  /-- A string. -/
  | str (token : Token) (value : String)
  /-- An operator in front of its operand. -/
  | unary (token : Token) (op : String) (operand : Expr)
  /-- An operator between its operands. -/
  | binary (token : Token) (left : Expr) (op : String) (right : Expr)
  /-- A choice. The second block is missing when there is no alternative. -/
  | choice (token : Token) (condition : Expr) (consequence alternative : Block)
  /-- A loop that runs while its condition holds. -/
  | loop (token : Token) (condition : Expr) (body : Block)
  /-- A function of its parameters. -/
  | fn (token : Token) (params : List (Option Ident)) (body : Block)
  /-- A call with its arguments. -/
  | call (token : Token) (callee : Expr) (args : List Expr)

/-- A statement. -/
inductive Stmt where
  /-- No statement stands here. -/
  | missing
  /-- Binds a name to a value. -/
  | bind (token : Token) (name : Option Ident) (value : Expr)
  /-- Leaves the function. The value is missing when none is given. -/
  | ret (token : Token) (value : Expr)
  /-- Leaves the innermost loop. -/
  | brk (token : Token)
  /-- Evaluates an expression. -/
  | expr (token : Token) (value : Expr)
  /-- Runs the statements of a block. -/
  | block (body : Block)

/-- A list of statements in braces. -/
inductive Block where
  /-- No block stands here. -/
  | missing
  /-- The statements behind the opening brace `token`. -/
  | mk (token : Token) (stmts : List Stmt)

end

instance : Inhabited Expr := ⟨.missing⟩
instance : Inhabited Stmt := ⟨.missing⟩
instance : Inhabited Block := ⟨.missing⟩

/-- The statements of a source, in order. -/
structure Program where
  stmts : List Stmt
  deriving Inhabited

/-- Any tree. -/
inductive Node where
  | program (p : Program)
  | stmt (s : Stmt)
  | expr (e : Expr)

namespace Ident

/-- The name that a token spells. -/
def ofToken (t : Token) : Ident := ⟨t, t.literal⟩

/-- The parameters of a function, if none of them is missing. -/
def present? : List (Option Ident) → Option (List Ident)
  | [] => some []
  | none :: _ => none
  | some x :: ps => (present? ps).map (x :: ·)

/-- Parameters that are there are all present. -/
@[simp] theorem present?_map_some (xs : List Ident) : present? (xs.map some) = some xs := by
  induction xs with
  | nil => rfl
  | cons x xs ih => rw [List.map_cons, present?, ih, Option.map_some]

theorem present?_eq_some_iff {ps : List (Option Ident)} {xs : List Ident} :
    present? ps = some xs ↔ ps = xs.map some := by
  constructor
  · intro h
    induction ps generalizing xs with
    | nil =>
      obtain rfl := Option.some.inj h
      rfl
    | cons p ps ih =>
      cases p with
      | none => exact absurd h (by simp [present?])
      | some x =>
        obtain ⟨ys, hys, rfl⟩ := Option.map_eq_some_iff.1 h
        rw [List.map_cons, ih hys]
  · rintro rfl
    exact present?_map_some xs

/-- One missing parameter is enough. -/
theorem present?_eq_none_iff {ps : List (Option Ident)} : present? ps = none ↔ none ∈ ps := by
  induction ps with
  | nil => simp [present?]
  | cons p ps ih => cases p <;> simp [present?, ih]

/-- Parameters of which none is missing are those of a list of names. -/
theorem exists_map_some {ps : List (Option Ident)} (h : none ∉ ps) :
    ∃ xs : List Ident, ps = xs.map some := by
  obtain ⟨xs, hxs⟩ := Option.ne_none_iff_exists'.1 (mt present?_eq_none_iff.1 h)
  exact ⟨xs, present?_eq_some_iff.1 hxs⟩

end Ident

/-- Whether no expression stands here. -/
def Expr.isMissing : Expr → Bool
  | .missing => true
  | _ => false

/-- Whether no block stands here. -/
def Block.isMissing : Block → Bool
  | .missing => true
  | .mk _ _ => false

/-- The text of the token that an expression starts from. -/
def Expr.literal : Expr → String
  | .missing => ""
  | .ident name => name.token.literal
  | .int t _ | .bool t _ | .str t _ | .unary t _ _ | .binary t _ _ _ | .choice t _ _ _
  | .loop t _ _ | .fn t _ _ | .call t _ _ => t.literal

/-- The text of the opening brace. -/
def Block.literal : Block → String
  | .missing => ""
  | .mk t _ => t.literal

/-- The text of the token that a statement starts from. -/
def Stmt.literal : Stmt → String
  | .missing => ""
  | .bind t _ _ | .ret t _ | .brk t | .expr t _ => t.literal
  | .block b => b.literal

/-- The text of the token that the first statement starts from. -/
def Program.literal (p : Program) : String := (p.stmts.head?.map Stmt.literal).getD ""

/-- The text of the token that a tree starts from. -/
def Node.literal : Node → String
  | .program p => p.literal
  | .stmt s => s.literal
  | .expr e => e.literal

end Incognita
