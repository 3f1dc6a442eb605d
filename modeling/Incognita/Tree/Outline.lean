import Incognita.Tree
import Incognita.Text.Decimal

namespace Incognita

/-!
# Tree — trees as nested lists

Writes a tree in prefix form with every node in parentheses, one top level
statement to a line. A missing part is written out as such, but for the parameters
of functions: there is no outline when one of them is missing.

* `Expr.outline`, `Stmt.outline`, `Block.outline`, `Program.outline`,
  `Node.outline`.
-/

/-- Stands for a missing part. -/
def absent : String := "<nil>"

mutual

/-- An expression in prefix form. -/
def Expr.outline : Expr → Option String
  | .missing => some absent
  | .ident name => some name.name
  | .int _ none => some absent
  | .int _ (some n) => some (Text.ofInt64 n)
  | .bool _ b => some (if b then "true" else "false")
  | .str _ v => some ("\"" ++ v ++ "\"")
  | .unary _ op e => do
    let e ← e.outline
    some ("(" ++ op ++ " " ++ e ++ ")")
  | .binary _ l op r => do
    let l ← l.outline
    let r ← r.outline
    some ("(" ++ op ++ " " ++ l ++ " " ++ r ++ ")")
  | .choice _ c a b => do
    let c ← c.outline
    let a ← a.outline
    let b ← b.outlineElse
    some ("(if " ++ c ++ " (then " ++ a ++ ")" ++ b ++ ")")
  | .loop _ c b => do
    let c ← c.outline
    let b ← b.outline
    some ("(while " ++ c ++ " " ++ b ++ ")")
  | .fn _ ps b => do
    let names ← Ident.present? ps
    let b ← b.outline
    some ("(fn (" ++ ", ".intercalate (names.map Ident.name) ++ ") " ++ b ++ ")")
  | .call _ f as => do
    let f ← f.outline
    let as ← Expr.outlines as
    some ("(call " ++ f ++ as ++ ")")

/-- Expressions in prefix form, a space in front of each. -/
def Expr.outlines : List Expr → Option String
  | [] => some ""
  | e :: es => do
    let first ← e.outline
    let rest ← Expr.outlines es
    some (" " ++ first ++ rest)

/-- A statement in prefix form. -/
def Stmt.outline : Stmt → Option String
  | .missing => some absent
  | .bind _ name v => do
    let v ← v.outline
    some ("(let " ++ (name.map Ident.name).getD absent ++ " " ++ v ++ ")")
  | .ret _ v => do
    let v ← v.outline
    some ("(return " ++ v ++ ")")
  | .brk _ => some "(break)"
  | .expr _ e => e.outline
  | .block b => b.outline

/-- Statements in prefix form, a space in front of each. -/
def Stmt.outlines : List Stmt → Option String
  | [] => some ""
  | s :: ss => do
    let first ← s.outline
    let rest ← Stmt.outlines ss
    some (" " ++ first ++ rest)

/-- A block in prefix form. -/
def Block.outline : Block → Option String
  | .missing => some absent
  | .mk _ ss => do
    let ss ← Stmt.outlines ss
    some ("(scope" ++ ss ++ ")")

/-- The alternative of a choice in prefix form. A missing one leaves nothing. -/
def Block.outlineElse : Block → Option String
  | .missing => some ""
  | .mk _ ss => do
    let ss ← Stmt.outlines ss
    some (" (else (scope" ++ ss ++ "))")

end

/-- The lines of a program in prefix form. -/
def Stmt.outlineLines : List Stmt → Option (List String)
  | [] => some []
  | s :: ss => do
    let first ← s.outline
    let rest ← Stmt.outlineLines ss
    some (first :: rest)

/-- A program in prefix form, one statement to a line. -/
def Program.outline (p : Program) : Option String :=
  (Stmt.outlineLines p.stmts).map ("\n".intercalate ·)

/-- A tree in prefix form. -/
def Node.outline : Node → Option String
  | .program p => p.outline
  | .stmt s => s.outline
  | .expr e => e.outline

end Incognita
