import Incognita.Yaml.Token

namespace Incognita.Yaml

/-!
# Yaml — nodes

* `Node` — scalars, sequences and mappings, each with the line where it starts, counted
  from one, and the tag that is written in front of it; and references to other nodes;
* `Node.scalarText` — the text of a scalar or a reference, and nothing for other nodes;
* `Node.sameKey`, `repeated` — the keys of a mapping that occur more than once;
* `Document` — a node with the nodes that have anchors;
* `Document.resolve` — the node that a node stands for.
-/

/-- A part of a document. A reference has the number of the anchor that it stands for. -/
inductive Node where
  | scalar (line : Nat) (tag : Option String) (style : Style) (text : String)
  | seq (line : Nat) (tag : Option String) (items : List Node)
  | map (line : Nat) (tag : Option String) (entries : List (Node × Node))
  | reference (line : Nat) (name : String) (anchor : Nat)
  deriving Repr, Inhabited

namespace Node

/-- The line where a node starts. -/
def line : Node → Nat
  | scalar line .. => line
  | seq line .. => line
  | map line .. => line
  | reference line .. => line

/-- The text of a scalar, or the name of a reference. -/
def scalarText : Node → String
  | scalar _ _ _ text => text
  | reference _ name _ => name
  | seq .. | map .. => ""

/-- Whether two nodes count as the same key: both scalars of one text, both references of
    one name, both sequences or both mappings. -/
def sameKey : Node → Node → Bool
  | scalar _ _ _ a, scalar _ _ _ b => a == b
  | reference _ a _, reference _ b _ => a == b
  | seq .., seq .. => true
  | map .., map .. => true
  | _, _ => false

/-- What stands where nothing is written. -/
def empty (mark : Mark) : Node := scalar (mark.line + 1) none .plain ""

end Node

/-- The pairs of keys of which the second repeats the first. -/
def repeated : List (Node × Node) → List (Node × Node)
  | [] => []
  | (k, _) :: entries =>
    (entries.filter fun e => k.sameKey e.1).map (fun e => (k, e.1)) ++ repeated entries

/-- A node and the nodes with anchors in it, by their numbers. -/
structure Document where
  root : Node
  anchored : Array Node
  deriving Repr, Inhabited

/-- The node that a node stands for. -/
def Document.resolve (d : Document) : Node → Node
  | .reference line name anchor => d.anchored[anchor]?.getD (.reference line name anchor)
  | n => n

end Incognita.Yaml
