import Incognita.Tree
import Incognita.Tree.Text
import Incognita.Text.Decimal

namespace Incognita

/-!
# Value — what expressions evaluate to

Beside the plain values there are three signals: a function being left with a
value, a loop being left, and an error. A signal ends every expression and
statement it passes through.

* `Value.Kind` — the kinds of values and their names in messages;
* `RuntimeError` — what can go wrong, with its wording `RuntimeError.message`;
* `Closure` — a function with the scopes it was made in;
* `Value`, `Value.isSignal`, `Value.truthy`;
* `Value.inspect` — a value as it is shown;
* `Value.same`, `equalities` — when two values are the same object.
-/

/-- What a value is. -/
inductive Value.Kind where
  | integer
  | boolean
  | string
  | null
  | return
  | error
  | function
  | break
  deriving DecidableEq, Repr, Inhabited

/-- The name of a kind of values, as messages write it. -/
def Value.Kind.name : Value.Kind → String
  | .integer => "INTEGER"
  | .boolean => "BOOLEAN"
  | .string => "STRING"
  | .null => "NULL"
  | .return => "RETURN"
  | .error => "ERROR"
  | .function => "FUNCTION"
  | .break => "BREAK"

/-- What went wrong while a program ran. -/
inductive RuntimeError where
  /-- The operator does not apply to its one operand. -/
  | unknownUnary (op : String) (operand : Value.Kind)
  /-- The operator does not apply to its two operands, which are of one kind. -/
  | unknownBinary (left : Value.Kind) (op : String) (right : Value.Kind)
  /-- The operator does not apply to operands of two kinds. -/
  | typeMismatch (left : Value.Kind) (op : String) (right : Value.Kind)
  /-- No scope binds the name. -/
  | unbound (name : String)
  /-- Something other than a function was called. -/
  | notCallable (callee : Value.Kind)
  /-- A division by zero. -/
  | divisionByZero (dividend : Int64)
  /-- A function was called with the wrong number of arguments. -/
  | wrongArity (expected received : Nat)
  /-- Calls were nested deeper than allowed. -/
  | tooDeep (limit : Nat)
  /-- A break that left no loop. -/
  | strayBreak
  /-- A part of the tree is missing. -/
  | invalidNode
  /-- An integer literal has no value. -/
  | invalidInteger (literal : String)
  /-- An error with a wording of its own. -/
  | custom (message : String)
  deriving DecidableEq, Repr, Inhabited

/-- The wording of an error. -/
def RuntimeError.message : RuntimeError → String
  | unknownUnary op operand => "operador desconocido: " ++ op ++ operand.name
  | unknownBinary left op right =>
    "operador desconocido: " ++ left.name ++ " " ++ op ++ " " ++ right.name
  | typeMismatch left op right =>
    "discrepancia de tipos: " ++ left.name ++ " " ++ op ++ " " ++ right.name
  | unbound name => "identificador no encontrado: " ++ name
  | notCallable callee => "no es una función: " ++ callee.name
  | divisionByZero dividend => "división entre cero: " ++ Text.ofInt64 dividend ++ " / 0"
  | wrongArity expected received =>
    "número de argumentos incorrecto: se esperaban " ++ Text.ofNat expected ++
      ", se recibieron " ++ Text.ofNat received
  | tooDeep limit => "profundidad máxima de llamadas excedida: " ++ Text.ofNat limit
  | strayBreak => "'termina' fuera de un ciclo"
  | invalidNode => "expresión inválida"
  | invalidInteger literal => "entero inválido: " ++ literal
  | custom message => message

/-- The number of a scope in the store. -/
abbrev ScopeId := Nat

/-- A function with the scopes it was made in, innermost first. Every evaluation of
    a function literal makes another closure, and `id` tells them apart. -/
structure Closure where
  token : Token
  params : List (Option Ident)
  body : Block
  scopes : List ScopeId
  id : Nat

/-- The function without its body. -/
def Closure.signature (c : Closure) : Option String := Incognita.signature c.token c.params

/-- A value or a signal. -/
inductive Value where
  | int (n : Int64)
  | bool (b : Bool)
  | str (s : String)
  | null
  | fn (c : Closure)
  /-- A function is being left with a value. -/
  | ret (v : Value)
  /-- The evaluation has failed. -/
  | err (e : RuntimeError)
  /-- A loop is being left. -/
  | brk

namespace Value

instance : Inhabited Value := ⟨.null⟩

/-- The kind of a value. -/
def kind : Value → Kind
  | .int _ => .integer
  | .bool _ => .boolean
  | .str _ => .string
  | .null => .null
  | .fn _ => .function
  | .ret _ => .return
  | .err _ => .error
  | .brk => .break

/-- Whether a value ends the expressions and statements it passes through. -/
def isSignal : Value → Bool
  | .ret _ | .err _ | .brk => true
  | _ => false

/-- Whether a value is an error. -/
def isError : Value → Bool
  | .err _ => true
  | _ => false

/-- Whether a value counts as true: all do but false and null. -/
def truthy : Value → Bool
  | .null => false
  | .bool b => b
  | _ => true

/-- A value as it is shown. A function is shown without its body, and a function
    being left as the value that it is left with. There is nothing to show of a
    function that lacks a parameter. -/
def inspect : Value → Option String
  | .int n => some (Text.ofInt64 n)
  | .bool true => some "verdadero"
  | .bool false => some "falso"
  | .str s => some s
  | .null => some "nulo"
  | .fn c => c.signature
  | .ret v => v.inspect
  | .err e => some ("Error: " ++ e.message)
  | .brk => some "termina"

/-- Whether two values met by an operator are the same: plain values by what they
    are, functions only when they are one closure. -/
def same : Value → Value → Bool
  | .int m, .int n => m == n
  | .bool a, .bool b => a == b
  | .str s, .str t => s == t
  | .null, .null => true
  | .brk, .brk => true
  | .fn c, .fn d => c.id == d.id
  | _, _ => false

/-- Whether a value has no identity beyond what it is. -/
def comparesByContent : Value → Bool
  | .int _ | .bool _ | .str _ | .null | .brk => true
  | .fn _ | .ret _ | .err _ => false

end Value

/-- Which of the values, each made for itself, are the same object: a value is the
    same as itself, and as another one when both have no identity and are equal. -/
def equalities (values : List Value) : List (List Bool) :=
  values.mapIdx fun i v => values.mapIdx fun j w =>
    i == j || (v.comparesByContent && w.comparesByContent && v.same w)

end Incognita
