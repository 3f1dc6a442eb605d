import Incognita.Tree

namespace Incognita

/-!
# Tree — trees as source text

Writes a tree as the language writes it, with every operator and its operands in
parentheses. A missing part leaves nothing, but for the parameters of functions:
whether one of them is missing is not looked at before its name is, and there is no
text when one is.

* `signature` — a function without its body;
* `Expr.text`, `Stmt.text`, `Block.text`, `Program.text`, `Node.text`.
-/

/-- A function without its body: the keyword and the parameters. -/
def signature (token : Token) (params : List (Option Ident)) : Option String := do
  let names ← Ident.present? params
  some (token.literal ++ "(" ++ ", ".intercalate (names.map Ident.name) ++ ")")

mutual

/-- An expression as source text. -/
def Expr.text : Expr → Option String
  | .missing => some ""
  | .ident name => some name.name
  | .int t _ => some t.literal
  | .bool t _ => some t.literal
  | .str _ v => some ("\"" ++ v ++ "\"")
  | .unary _ op e => do
    let e ← e.text
    some ("(" ++ op ++ e ++ ")")
  | .binary _ l op r => do
    let l ← l.text
    let r ← r.text
    some ("(" ++ l ++ " " ++ op ++ " " ++ r ++ ")")
  | .choice t c a b => do
    let c ← c.text
    let a ← Block.textAfter " " a
    let b ← Block.textAfter " tonces " b
    some (t.literal ++ " " ++ c ++ a ++ b)
  | .loop t c b => do
    let c ← c.text
    let b ← Block.textAfter " " b
    some (t.literal ++ " " ++ c ++ b)
  | .fn t ps b => do
    let head ← signature t ps
    let b ← Block.textAfter " " b
    some (head ++ b)
  | .call _ f as => do
    let f ← f.text
    let as ← Expr.texts as
    some (f ++ "(" ++ ", ".intercalate as ++ ")")

/-- Expressions as source texts. -/
def Expr.texts : List Expr → Option (List String)
  | [] => some []
  | e :: es => do
    let first ← e.text
    let rest ← Expr.texts es
    some (first :: rest)

/-- A statement as source text. -/
def Stmt.text : Stmt → Option String
  | .missing => some ""
  | .bind t name v => do
    let v ← v.text
    some (t.literal ++ " " ++ (name.map Ident.name).getD "" ++ " = " ++ v ++ ";")
  | .ret t v => do
    let v ← v.text
    some (t.literal ++ " " ++ v ++ ";")
  | .brk t => some (t.literal ++ ";")
  | .expr _ e => e.text
  | .block b => Block.textAfter "" b

/-- Statements as source texts. -/
def Stmt.texts : List Stmt → Option (List String)
  | [] => some []
  | s :: ss => do
    let first ← s.text
    let rest ← Stmt.texts ss
    some (first :: rest)

/-- A block as source text behind `lead`. A missing block leaves nothing, not even
    the lead. -/
def Block.textAfter (lead : String) : Block → Option String
  | .missing => some ""
  | .mk _ [] => some (lead ++ "\x7b \x7d")
  | .mk _ (s :: ss) => do
    let first ← s.text
    let rest ← Stmt.texts ss
    some (lead ++ "\x7b " ++ " ".intercalate (first :: rest) ++ " \x7d")

end

/-- A block as source text. -/
def Block.text (b : Block) : Option String := b.textAfter ""

/-- A program as source text, its statements side by side. -/
def Program.text (p : Program) : Option String := (Stmt.texts p.stmts).map String.join

/-- A tree as source text. -/
def Node.text : Node → Option String
  | .program p => p.text
  | .stmt s => s.text
  | .expr e => e.text

/-- The signature of a function, if the tree is one. -/
def Node.signature? : Node → Option String
  | .expr (.fn t ps _) => signature t ps
  | _ => none

end Incognita
