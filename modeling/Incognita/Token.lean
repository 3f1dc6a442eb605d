namespace Incognita

/-!
# Token — the words of the language

A token is a kind and the text it was read from.

* `Token.Kind` — the kinds, in the order of their codes, from `eof` at `-1` on;
* `Token.Kind.name`, `Token.Kind.nameOfCode` — their names in messages;
* `Token.keywords`, `Token.Kind.ofWord` — the reserved words; every other word is
  an identifier;
* `Token` — a kind with its literal.
-/

namespace Token

/-- What a token is. -/
inductive Kind where
  | eof
  | illegal
  | ident
  | int
  | string
  | assign
  | plus
  | minus
  | bang
  | asterisk
  | slash
  | lt
  | gt
  | lte
  | gte
  | eq
  | notEq
  | and
  | or
  | comma
  | semicolon
  | lparen
  | rparen
  | lbrace
  | rbrace
  | kwLet
  | kwReturn
  | kwIf
  | kwElse
  | kwTrue
  | kwFalse
  | kwFunction
  | kwWhile
  | kwBreak
  deriving DecidableEq, Repr, Inhabited

namespace Kind

/-- Every kind, in the order of the codes. -/
def all : List Kind :=
  [eof, illegal, ident, int, string, assign, plus, minus, bang, asterisk, slash, lt, gt, lte, gte,
   eq, notEq, and, or, comma, semicolon, lparen, rparen, lbrace, rbrace, kwLet, kwReturn, kwIf,
   kwElse, kwTrue, kwFalse, kwFunction, kwWhile, kwBreak]

/-- The name of a kind, as messages write it. -/
def name : Kind → String
  | eof => "EOF"
  | illegal => "ILLEGAL"
  | ident => "IDENT"
  | int => "INT"
  | string => "STRING"
  | assign => "ASSIGN"
  | plus => "PLUS"
  | minus => "MINUS"
  | bang => "BANG"
  | asterisk => "ASTERISK"
  | slash => "SLASH"
  | lt => "LT"
  | gt => "GT"
  | lte => "LTE"
  | gte => "GTE"
  | eq => "EQ"
  | notEq => "NOT_EQ"
  | and => "AND"
  | or => "OR"
  | comma => "COMMA"
  | semicolon => "SEMICOLON"
  | lparen => "LPAREN"
  | rparen => "RPAREN"
  | lbrace => "LBRACE"
  | rbrace => "RBRACE"
  | kwLet => "LET"
  | kwReturn => "RETURN"
  | kwIf => "IF"
  | kwElse => "ELSE"
  | kwTrue => "TRUE"
  | kwFalse => "FALSE"
  | kwFunction => "FUNCTION"
  | kwWhile => "WHILE"
  | kwBreak => "BREAK"

/-- The kind with a given code: `eof` has `-1`, the others count up from `0`. -/
def ofCode? (code : Int) : Option Kind :=
  if code < -1 then none else all[(code + 1).toNat]?

/-- The name of the kind with a given code. -/
def nameOfCode (code : Int) : String := ((ofCode? code).map name).getD "UNKNOWN"

end Kind

/-- The reserved words. The two truth values have two spellings each. -/
def keywords : List (String × Kind) :=
  [("incognita", .kwLet), ("devuelve", .kwReturn), ("si", .kwIf), ("tonces", .kwElse),
   ("verdadero", .kwTrue), ("verdad", .kwTrue), ("falso", .kwFalse), ("mentira", .kwFalse),
   ("operacion", .kwFunction), ("mientras", .kwWhile), ("termina", .kwBreak)]

/-- The kind of a word: that of the reserved word it is, or an identifier. -/
def Kind.ofWord (word : String) : Kind := (keywords.lookup word).getD .ident

end Token

/-- A kind with the text it was read from. The text of a string is without its
    quotes. -/
structure Token where
  kind : Token.Kind
  literal : String
  deriving DecidableEq, Repr, Inhabited

/-- What stands after the last token of every source. -/
def Token.eof : Token := ⟨.eof, ""⟩

end Incognita
