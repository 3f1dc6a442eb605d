import Incognita.Proofs.Grammar.Derivation
import Incognita.Proofs.Lexemes

namespace Incognita

/-!
# Parser — reading with a cursor and a stack of loops

The reading functions once more, now with everything that they only pass along as a state of its
own: the cursor in the source, the faults so far, and the loops that are open, as a stack with a
frame for each function.  Nothing keeps a frame from being taken off an empty stack here, or a count
from becoming negative; that neither ever happens is what `Stacks/Balance.lean` shows.

* `Place`, `Place.next` — the cursor, and its only move;
* `Frame`, `Machine` — the open loops of a function, and the state;
* `Act`, `Halt` — what changes the state, and what can stop it;
* `Act.withinLoop`, `Act.withinFunction` — entering and leaving around an action;
* `Machine.expr`, `Machine.stmt`, `Machine.program` — the functions.  Like those that pass tokens
  along they carry a bound on their nesting;
* `Machine.whole` — reading a source from its start.
-/

namespace Parser

/-! ### The state -/

/-- The cursor: the token that is read, the one ahead of it, and the source behind both. -/
structure Place where
  /-- The token at the cursor. -/
  current : Token
  /-- The token behind it. -/
  ahead : Token
  /-- What has not been cut into tokens yet. -/
  source : List Char

namespace Place

/-- The cursor one token on. -/
def next (p : Place) : Place := ⟨p.ahead, (Token.next p.source).1, (Token.next p.source).2⟩

/-- The cursor before anything is read, and the two tokens that it takes in at once. -/
def start (source : List Char) : Place := (next ⟨⟨.illegal, ""⟩, ⟨.illegal, ""⟩, source⟩).next

end Place

/-- A function that is being read, and how many of its loops are open. -/
structure Frame where
  /-- The word that the function starts with, or nothing for the program. -/
  function : String
  /-- How many loops of it are open. -/
  loops : Int
  deriving DecidableEq

/-- Where reading stands: the faults so far, and a frame for each function that is open, the
    innermost one first.  Every stack that there has been is kept. -/
structure Machine where
  place : Place
  /-- The faults that have been met, in their order. -/
  faults : List Diagnostic := []
  /-- The functions that are open, the innermost first. -/
  frames : List Frame := []
  /-- All earlier stacks, the last one first. -/
  history : List (List Frame) := []

/-- What stops reading. -/
inductive Halt where
  /-- The bound on nesting ran out. -/
  | bound
  /-- A frame was asked of an empty stack. -/
  | noFrame
  deriving DecidableEq

/-- A change of the state that gives something, unless it is stopped. -/
abbrev Act := StateT Machine (Except Halt)

namespace Act

/-! ### The cursor and the faults -/

def current : Act Token := return (← get).place.current

def ahead : Act Token := return (← get).place.ahead

def advance : Act Unit := modify fun m => { m with place := m.place.next }

def report (d : Diagnostic) : Act Unit := modify fun m => { m with faults := m.faults ++ [d] }

/-- Takes the token ahead if it is of the kind `k`, and reports it if it is not. -/
def consume (k : Token.Kind) : Act Bool := do
  let t ← ahead
  if t.kind = k then
    advance
    return true
  else
    report (.unexpected k t.kind)
    return false

/-- Takes the semicolon ahead, if there is one. -/
def skip : Act Unit := do
  if (← ahead).kind = .semicolon then advance

/-! ### The stack -/

/-- Every change of the stack goes through here. -/
def setFrames (frames : List Frame) : Act Unit :=
  modify fun m => { m with frames := frames, history := frames :: m.history }

/-- The frame of the function that is being read. -/
def frame : Act Frame := do
  match (← get).frames with
  | [] => throw .noFrame
  | f :: _ => return f

def enterFunction (function : String) : Act Unit := do
  setFrames (⟨function, 0⟩ :: (← get).frames)

def leaveFunction : Act Unit := do
  match (← get).frames with
  | [] => throw .noFrame
  | _ :: frames => setFrames frames

/-- Changes the number of loops that are open in the innermost function. -/
def addLoops (n : Int) : Act Unit := do
  match (← get).frames with
  | [] => throw .noFrame
  | f :: frames => setFrames ({ f with loops := f.loops + n } :: frames)

def enterLoop : Act Unit := addLoops 1

def leaveLoop : Act Unit := addLoops (-1)

def insideLoop : Act Bool := return (← frame).loops ≠ 0

def withinFunction {α : Type} (function : String) (act : Act α) : Act α := do
  enterFunction function
  let a ← act
  leaveFunction
  return a

def withinLoop {α : Type} (act : Act α) : Act α := do
  enterLoop
  let a ← act
  leaveLoop
  return a

/-- A break is reported unless a loop is open. -/
def checkBreak : Act Unit := do
  if ← insideLoop then return () else report .strayBreak

/-- What `read` gives behind an opening brace. -/
def braced (read : Act Block) : Act Block := do
  if ← consume .lbrace then read else return .missing

end Act

/-! ### The reading functions -/

namespace Machine

open Act
open Grammar (isBinary)

/-- The parameters after the first one, so many at most. -/
def moreParams : Nat → Act (Option (List Ident))
  | 0 => throw .bound
  | n + 1 => do
    if (← ahead).kind = .comma then
      advance
      if ← consume .ident then
        let t ← current
        return (← moreParams n).map (Ident.ofToken t :: ·)
      else return none
    else if ← consume .rparen then return some []
    else return none

/-- The parameters after the opening parenthesis.  The token ahead apart, each one takes a character
    of the source at least, so there cannot be more of them. -/
def params : Act (Option (List Ident)) := do
  if (← ahead).kind = .rparen then
    advance
    return some []
  else if ← consume .ident then
    let t ← current
    return (← moreParams ((← get).place.source.length + 2)).map (Ident.ofToken t :: ·)
  else return none

/-- The integer literal that is the current token. -/
def intLiteral : Act Expr := do
  let t ← current
  match Text.int64OfDigits? t.literal with
  | some n => return .int t (some n)
  | none =>
    report (.badInteger t.literal)
    return .int t none

mutual

/-- The expression that starts with the current token. -/
def expr : Nat → Power → Act Expr
  | 0, _ => throw .bound
  | fuel + 1, power => do
    let t ← current
    if startsExpr t.kind then
      let left ← operand fuel
      operators fuel power left
    else
      report (.noRule t.literal)
      return .missing

/-- The same up to the first operator. -/
def operand : Nat → Act Expr
  | 0 => throw .bound
  | fuel + 1 => do
    let t ← current
    match t.kind with
    | .ident => return .ident (.ofToken t)
    | .int => intLiteral
    | .string => return .str t t.literal
    | .kwTrue => return .bool t true
    | .kwFalse => return .bool t false
    | .bang | .minus =>
      advance
      let e ← expr fuel Power.unary
      return .unary t t.literal e
    | .lparen =>
      advance
      let e ← expr fuel Power.lowest
      if ← consume .rparen then return e else return .missing
    | .kwIf =>
      match ← condition fuel with
      | none => return .missing
      | some cond => choice fuel t cond
    | .kwWhile =>
      match ← condition fuel with
      | none => return .missing
      | some cond =>
        match ← braced (withinLoop (block fuel)) with
        | .missing => return .missing
        | body => return .loop t cond body
    | .kwFunction =>
      if ← consume .lparen then
        match ← params with
        | none => return .missing
        | some names =>
          match ← braced (withinFunction t.literal (block fuel)) with
          | .missing => return .missing
          | body => return .fn t (names.map some) body
      else return .missing
    | _ =>
      report (.noRule t.literal)
      return .missing

/-- The operators ahead that bind tighter than `power`, with `left` as the first operand. -/
def operators : Nat → Power → Expr → Act Expr
  | 0, _, _ => throw .bound
  | fuel + 1, power, left => do
    let t ← ahead
    if t.kind ≠ .semicolon ∧ power < Power.ofKind t.kind then
      if t.kind = .lparen then
        advance
        let as ← args fuel
        operators fuel power (match as with
          | some es => .call t left es
          | none => .missing)
      else if isBinary t.kind then
        advance
        advance
        let right ← expr fuel (Power.ofKind t.kind)
        operators fuel power (.binary t left t.literal right)
      else return left
    else return left

/-- The arguments of a call, with the opening parenthesis as the current token. -/
def args : Nat → Act (Option (List Expr))
  | 0 => throw .bound
  | fuel + 1 => do
    if (← ahead).kind = .rparen then
      advance
      return some []
    else
      advance
      let e ← expr fuel Power.lowest
      return (← moreArgs fuel).map (e :: ·)

def moreArgs : Nat → Act (Option (List Expr))
  | 0 => throw .bound
  | fuel + 1 => do
    if (← ahead).kind = .comma then
      advance
      advance
      let e ← expr fuel Power.lowest
      return (← moreArgs fuel).map (e :: ·)
    else if ← consume .rparen then return some []
    else return none

/-- The condition ahead, in parentheses. -/
def condition : Nat → Act (Option Expr)
  | 0 => throw .bound
  | fuel + 1 => do
    if ← consume .lparen then
      advance
      let e ← expr fuel Power.lowest
      if ← consume .rparen then return some e else return none
    else return none

/-- The blocks ahead of a choice. -/
def choice : Nat → Token → Expr → Act Expr
  | 0, _, _ => throw .bound
  | fuel + 1, t, cond => do
    match ← braced (block fuel) with
    | .missing => return .missing
    | consequence =>
      if (← ahead).kind = .kwElse then
        advance
        match ← braced (block fuel) with
        | .missing => return .missing
        | alternative => return .choice t cond consequence alternative
      else return .choice t cond consequence .missing

/-- The block that starts with the current token. -/
def block : Nat → Act Block
  | 0 => throw .bound
  | fuel + 1 => do
    let t ← current
    advance
    return .mk t (← body fuel)

/-- The statements from the current token on, up to a closing brace. -/
def body : Nat → Act (List Stmt)
  | 0 => throw .bound
  | fuel + 1 => do
    let t ← current
    if t.kind = .rbrace then return []
    else if t.kind = .eof then
      report .unclosedBlock
      return []
    else
      let s ← stmt fuel
      advance
      return s.toList ++ (← body fuel)

/-- The statement that starts with the current token. -/
def stmt : Nat → Act (Option Stmt)
  | 0 => throw .bound
  | fuel + 1 => do
    let t ← current
    match t.kind with
    | .kwLet =>
      if ← consume .ident then
        let name ← current
        if ← consume .assign then
          advance
          let e ← expr fuel Power.lowest
          skip
          return some (.bind t (some (.ofToken name)) e)
        else return none
      else return none
    | .kwReturn =>
      if endsReturn (← ahead).kind then
        skip
        return some (.ret t .missing)
      else
        advance
        let e ← expr fuel Power.lowest
        skip
        return some (.ret t e)
    | .kwBreak =>
      checkBreak
      skip
      return some (.brk t)
    | _ =>
      let e ← expr fuel Power.lowest
      skip
      if e.isMissing then return none else return some (.expr t e)

end

/-- The statements from the current token to the end of the source. -/
def program : Nat → Act (List Stmt)
  | 0 => throw .bound
  | fuel + 1 => do
    if (← current).kind = .eof then return []
    else
      let s ← stmt fuel
      advance
      return s.toList ++ (← program fuel)

/-- The statements of a source, which is a function without a name. -/
def whole (fuel : Nat) : Act (List Stmt) := do
  setFrames []
  withinFunction "" (program fuel)

/-- The state before a source is read. -/
def start (source : String) : Machine := { place := .start source.toList }

end Machine

end Parser

end Incognita
