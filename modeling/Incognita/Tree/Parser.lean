import Incognita.Token.Lexer
import Incognita.Text.Decimal
import Incognita.Tree
import Incognita.Tree.Diagnostic

namespace Incognita

/-!
# Tree — reading a program

Recursive descent over the tokens, with a binding power for each operator. Reading
never stops at a fault: it reports it, leaves the part it could not read as
missing, and goes on.

Every function gets the tokens that are still to be read and gives back the ones
after what it took. At the end of the source there are none, and reading past it
takes nothing.

* `Power` — how tightly operators bind;
* `Step` — what a function read, the tokens after it and the faults it met;
* `Parser.expr`, `Parser.stmt`, `Parser.block`, `Parser.program` — the functions.
  They carry a bound on their nesting, and give nothing when it runs out;
* `Parsed` — a program with the faults of its source;
* `parseTokens`, `parse` — reading with a bound that the number of tokens gives.
-/

/-- How tightly an operator binds its operands. -/
abbrev Power := Nat

namespace Power

/-- Below every operator. -/
def lowest : Power := 1

/-- The operators in front of an operand. -/
def unary : Power := 8

/-- The power of a token between two operands, or the lowest one for a token that
    is no operator. An opening parenthesis is a call. -/
def ofKind : Token.Kind → Power
  | .or => 2
  | .and => 3
  | .eq | .notEq => 4
  | .lt | .gt | .lte | .gte => 5
  | .plus | .minus => 6
  | .slash | .asterisk => 7
  | .lparen => 9
  | _ => lowest

end Power

/-- What was read, the tokens after it, and the faults met on the way. -/
structure Step (α : Type) where
  value : α
  rest : List Token
  faults : List Diagnostic := []

namespace Step

/-- The same step with other faults in front of its own. -/
def after {α : Type} (faults : List Diagnostic) (s : Step α) : Step α :=
  { s with faults := faults ++ s.faults }

/-- The same step with another value. -/
def map {α β : Type} (f : α → β) (s : Step α) : Step β := ⟨f s.value, s.rest, s.faults⟩

end Step

namespace Parser

/-- The kind of the next token. -/
def peek : List Token → Token.Kind
  | [] => .eof
  | t :: _ => t.kind

/-- The report that `expected` does not come next. -/
def unexpected (expected : Token.Kind) (ts : List Token) : Diagnostic :=
  .unexpected expected (peek ts)

/-- The tokens after an optional semicolon. -/
def skipSemicolon : List Token → List Token
  | [] => []
  | t :: ts => if t.kind = .semicolon then ts else t :: ts

/-- The tokens after one of the kind `k`, if it comes next. -/
def expect? (k : Token.Kind) : List Token → Option (List Token)
  | [] => none
  | t :: ts => if t.kind = k then some ts else none

/-- The parameters after the first one, up to the closing parenthesis. -/
def moreParams : List Token → Step (Option (List Ident))
  | [] => ⟨none, [], [.unexpected .rparen .eof]⟩
  | [t] =>
    if t.kind = .comma then ⟨none, [], [.unexpected .ident .eof]⟩
    else if t.kind = .rparen then ⟨some [], [], []⟩
    else ⟨none, [t], [.unexpected .rparen t.kind]⟩
  | t :: u :: ts =>
    if t.kind = .comma then
      if u.kind = .ident then (moreParams ts).map (·.map (Ident.ofToken u :: ·))
      else ⟨none, u :: ts, [.unexpected .ident u.kind]⟩
    else if t.kind = .rparen then ⟨some [], u :: ts, []⟩
    else ⟨none, t :: u :: ts, [.unexpected .rparen t.kind]⟩

/-- The parameters of a function after the opening parenthesis. -/
def params : List Token → Step (Option (List Ident))
  | [] => ⟨none, [], [.unexpected .ident .eof]⟩
  | t :: ts =>
    if t.kind = .rparen then ⟨some [], ts, []⟩
    else if t.kind = .ident then (moreParams ts).map (·.map (Ident.ofToken t :: ·))
    else ⟨none, t :: ts, [.unexpected .ident t.kind]⟩

/-- Whether an expression can start with a token of this kind. -/
def startsExpr : Token.Kind → Bool
  | .ident | .int | .string | .kwTrue | .kwFalse | .bang | .minus | .lparen | .kwIf | .kwWhile
  | .kwFunction => true
  | _ => false

/-- Whether a return without a value can stand in front of a token of this kind. -/
def endsReturn : Token.Kind → Bool
  | .semicolon | .rbrace | .eof => true
  | _ => false

/-- An integer literal. -/
def intLiteral (t : Token) (ts : List Token) : Step Expr :=
  match Text.int64OfDigits? t.literal with
  | some n => ⟨.int t (some n), ts, []⟩
  | none => ⟨.int t none, ts, [.badInteger t.literal]⟩

mutual

/-- An expression whose operators bind tighter than `power`. A token that starts no
    expression is taken and reported. -/
def expr : Nat → Nat → Power → List Token → Option (Step Expr)
  | 0, _, _, _ => none
  | _ + 1, _, _, [] => some ⟨.missing, [], [.noRule ""]⟩
  | fuel + 1, loops, power, t :: ts =>
    if startsExpr t.kind then do
      let left ← operand fuel loops t ts
      let whole ← operators fuel loops power left.value left.rest
      some (whole.after left.faults)
    else some ⟨.missing, ts, [.noRule t.literal]⟩

/-- The expression that starts with `t`, up to its first operator. -/
def operand : Nat → Nat → Token → List Token → Option (Step Expr)
  | 0, _, _, _ => none
  | fuel + 1, loops, t, ts =>
    match t.kind with
    | .ident => some ⟨.ident (.ofToken t), ts, []⟩
    | .int => some (intLiteral t ts)
    | .string => some ⟨.str t t.literal, ts, []⟩
    | .kwTrue => some ⟨.bool t true, ts, []⟩
    | .kwFalse => some ⟨.bool t false, ts, []⟩
    | .bang | .minus => do
      let e ← expr fuel loops Power.unary ts
      some (e.map (.unary t t.literal))
    | .lparen => do
      let e ← expr fuel loops Power.lowest ts
      match expect? .rparen e.rest with
      | some after => some ⟨e.value, after, e.faults⟩
      | none => some ⟨.missing, e.rest, e.faults ++ [unexpected .rparen e.rest]⟩
    | .kwIf => do
      let c ← condition fuel loops ts
      match c.value with
      | none => some ⟨.missing, c.rest, c.faults⟩
      | some cond => do
        let whole ← choice fuel loops t cond c.rest
        some (whole.after c.faults)
    | .kwWhile => do
      let c ← condition fuel loops ts
      match c.value with
      | none => some ⟨.missing, c.rest, c.faults⟩
      | some cond => do
        let b ← block fuel (loops + 1) c.rest
        match b.value with
        | .missing => some ⟨.missing, b.rest, c.faults ++ b.faults⟩
        | body => some ⟨.loop t cond body, b.rest, c.faults ++ b.faults⟩
    | .kwFunction =>
      match expect? .lparen ts with
      | none => some ⟨.missing, ts, [unexpected .lparen ts]⟩
      | some ts' =>
        let ps := params ts'
        match ps.value with
        | none => some ⟨.missing, ps.rest, ps.faults⟩
        | some names => do
          let b ← block fuel 0 ps.rest
          match b.value with
          | .missing => some ⟨.missing, b.rest, ps.faults ++ b.faults⟩
          | body => some ⟨.fn t (names.map some) body, b.rest, ps.faults ++ b.faults⟩
    | _ => some ⟨.missing, ts, [.noRule t.literal]⟩

/-- The operators that bind tighter than `power`, with `left` as the first operand. -/
def operators : Nat → Nat → Power → Expr → List Token → Option (Step Expr)
  | 0, _, _, _, _ => none
  | _ + 1, _, _, left, [] => some ⟨left, [], []⟩
  | fuel + 1, loops, power, left, t :: ts =>
    if power < Power.ofKind t.kind then
      if t.kind = .lparen then do
        let as ← args fuel loops ts
        let call := match as.value with
          | some es => Expr.call t left es
          | none => Expr.missing
        let whole ← operators fuel loops power call as.rest
        some (whole.after as.faults)
      else do
        let right ← expr fuel loops (Power.ofKind t.kind) ts
        let whole ← operators fuel loops power (.binary t left t.literal right.value) right.rest
        some (whole.after right.faults)
    else some ⟨left, t :: ts, []⟩

/-- The arguments of a call after the opening parenthesis. -/
def args : Nat → Nat → List Token → Option (Step (Option (List Expr)))
  | 0, _, _ => none
  | fuel + 1, loops, ts =>
    match expect? .rparen ts with
    | some after => some ⟨some [], after, []⟩
    | none => do
      let e ← expr fuel loops Power.lowest ts
      let es ← moreArgs fuel loops e.rest
      some ((es.map (·.map (e.value :: ·))).after e.faults)

/-- The arguments after the first one, up to the closing parenthesis. -/
def moreArgs : Nat → Nat → List Token → Option (Step (Option (List Expr)))
  | 0, _, _ => none
  | _ + 1, _, [] => some ⟨none, [], [.unexpected .rparen .eof]⟩
  | fuel + 1, loops, t :: ts =>
    if t.kind = .comma then do
      let e ← expr fuel loops Power.lowest ts
      let es ← moreArgs fuel loops e.rest
      some ((es.map (·.map (e.value :: ·))).after e.faults)
    else if t.kind = .rparen then some ⟨some [], ts, []⟩
    else some ⟨none, t :: ts, [.unexpected .rparen t.kind]⟩

/-- The condition of a choice or a loop, in parentheses. -/
def condition : Nat → Nat → List Token → Option (Step (Option Expr))
  | 0, _, _ => none
  | fuel + 1, loops, ts =>
    match expect? .lparen ts with
    | none => some ⟨none, ts, [unexpected .lparen ts]⟩
    | some ts' => do
      let e ← expr fuel loops Power.lowest ts'
      match expect? .rparen e.rest with
      | some after => some ⟨some e.value, after, e.faults⟩
      | none => some ⟨none, e.rest, e.faults ++ [unexpected .rparen e.rest]⟩

/-- The blocks of a choice after its condition. -/
def choice : Nat → Nat → Token → Expr → List Token → Option (Step Expr)
  | 0, _, _, _, _ => none
  | fuel + 1, loops, t, cond, ts => do
    let a ← block fuel loops ts
    match a.value with
    | .missing => some ⟨.missing, a.rest, a.faults⟩
    | consequence =>
      match expect? .kwElse a.rest with
      | none => some ⟨.choice t cond consequence .missing, a.rest, a.faults⟩
      | some ts' => do
        let b ← block fuel loops ts'
        match b.value with
        | .missing => some ⟨.missing, b.rest, a.faults ++ b.faults⟩
        | alternative =>
          some ⟨.choice t cond consequence alternative, b.rest, a.faults ++ b.faults⟩

/-- A block with its braces. Without an opening brace there is none. -/
def block : Nat → Nat → List Token → Option (Step Block)
  | 0, _, _ => none
  | _ + 1, _, [] => some ⟨.missing, [], [.unexpected .lbrace .eof]⟩
  | fuel + 1, loops, t :: ts =>
    if t.kind = .lbrace then do
      let ss ← body fuel loops ts
      some (ss.map (.mk t))
    else some ⟨.missing, t :: ts, [.unexpected .lbrace t.kind]⟩

/-- The statements of a block up to its closing brace, or to the end of the source. -/
def body : Nat → Nat → List Token → Option (Step (List Stmt))
  | 0, _, _ => none
  | _ + 1, _, [] => some ⟨[], [], [.unclosedBlock]⟩
  | fuel + 1, loops, t :: ts =>
    if t.kind = .rbrace then some ⟨[], ts, []⟩
    else do
      let s ← stmt fuel loops t ts
      let ss ← body fuel loops s.rest
      some ((ss.map (s.value.toList ++ ·)).after s.faults)

/-- The statement that starts with `t`. There is none when a binding or an
    expression cannot be read. -/
def stmt : Nat → Nat → Token → List Token → Option (Step (Option Stmt))
  | 0, _, _, _ => none
  | fuel + 1, loops, t, ts =>
    match t.kind with
    | .kwLet =>
      match ts with
      | [] => some ⟨none, [], [.unexpected .ident .eof]⟩
      | name :: ts' =>
        if name.kind = .ident then
          match expect? .assign ts' with
          | none => some ⟨none, ts', [unexpected .assign ts']⟩
          | some ts'' => do
            let e ← expr fuel loops Power.lowest ts''
            some ⟨some (.bind t (some (.ofToken name)) e.value), skipSemicolon e.rest, e.faults⟩
        else some ⟨none, name :: ts', [.unexpected .ident name.kind]⟩
    | .kwReturn =>
      if endsReturn (peek ts) then some ⟨some (.ret t .missing), skipSemicolon ts, []⟩
      else do
        let e ← expr fuel loops Power.lowest ts
        some ⟨some (.ret t e.value), skipSemicolon e.rest, e.faults⟩
    | .kwBreak =>
      some ⟨some (.brk t), skipSemicolon ts, if loops = 0 then [.strayBreak] else []⟩
    | _ => do
      let e ← expr fuel loops Power.lowest (t :: ts)
      match e.value with
      | .missing => some ⟨none, skipSemicolon e.rest, e.faults⟩
      | value => some ⟨some (.expr t value), skipSemicolon e.rest, e.faults⟩

end

/-- The statements of a source. -/
def program : Nat → List Token → Option (Step (List Stmt))
  | 0, _ => none
  | _ + 1, [] => some ⟨[], [], []⟩
  | fuel + 1, t :: ts => do
    let s ← stmt fuel 0 t ts
    let ss ← program fuel s.rest
    some ((ss.map (s.value.toList ++ ·)).after s.faults)

/-- A bound on the nesting that reading so many tokens can need. -/
def enough (tokens : Nat) : Nat := 4 * tokens + 4

end Parser

/-- A program with the faults of its source. The program is what could be read. -/
structure Parsed where
  program : Program
  diagnostics : List Diagnostic

/-- The program that tokens spell. -/
def parseTokens (ts : List Token) : Parsed :=
  match Parser.program (Parser.enough ts.length) ts with
  | some s => ⟨⟨s.value⟩, s.faults⟩
  | none => ⟨⟨[]⟩, []⟩

/-- The program that a source spells. -/
def parse (source : String) : Parsed := parseTokens (tokenize source.toList)

/-- The faults of a source in one line, if it has any. -/
def Parsed.error? (p : Parsed) : Option String :=
  if p.diagnostics.isEmpty then none else some (Diagnostic.summary p.diagnostics)

end Incognita
