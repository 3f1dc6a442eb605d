import Incognita.Yaml.Node
import Incognita.Yaml.Token.Lexer

namespace Incognita.Yaml

/-!
# Yaml — reading nodes

Recursive descent over the tokens. Where a key, a value or an entry is left out, an
empty scalar stands.

* `Reader` — what reads tokens, and stops at the first fault;
* `Reader.peek`, `Reader.take` — the next token;
* `Reader.properties` — the anchor and the tag of a node;
* `Reader.node` — one node. It carries a bound on the nesting;
* `parse` — the first document of a text, if there is one.
-/

/-- The tokens that are left, what the handles of tags stand for, the numbers of the
    anchors by their names, the latest one first, and the nodes that have them. -/
structure Reader.State where
  lexer : Lexer
  handles : List (String × String) := []
  names : List (String × Nat) := []
  anchored : Array Node := #[]

/-- What reads tokens. -/
abbrev Reader (α : Type) := StateT Reader.State (Except Fault) α

namespace Reader

/-- The next token. -/
def peek : Reader Token := do
  let (t, lexer) ← (← get).lexer.peek
  modify fun s => { s with lexer }
  pure t

/-- The next token, which is taken. -/
def take : Reader Token := do
  let t ← peek
  modify fun s => { s with lexer := s.lexer.advance }
  pure t

/-- The fault that the next token is not the one that a collection needs. -/
def fail {α : Type} (problem : Problem) (context : Mark) : Reader α := do
  throw (.inOrder problem context (← peek).mark)

/-- What `read` reads, or an empty scalar in front of one of the given tokens. -/
def orEmpty (ends : List Token.Kind) (mark : Mark) (read : Reader Node) : Reader Node := do
  if ends.contains (← peek).kind then pure (.empty mark) else read

/-- The anchor in front of a node, if there is one. -/
def anchor? : Reader (Option String) := do
  match (← peek).kind with
  | .anchor name =>
    let _ ← take
    pure (some name)
  | _ => pure none

/-- A tag as it is written: its handle, the rest of it, and its place. -/
abbrev WrittenTag := String × String × Mark

/-- The tag in front of a node, if there is one. -/
def tag? : Reader (Option WrittenTag) := do
  let t ← peek
  match t.kind with
  | .tag handle rest =>
    let _ ← take
    pure (some (handle, rest, t.mark))
  | _ => pure none

/-- A tag with what its handle stands for. -/
def expand (start : Mark) : WrittenTag → Reader String
  | (handle, rest, mark) => do
    if handle.isEmpty then pure rest
    else
      match (← get).handles.lookup handle with
      | some stem => pure (stem ++ rest)
      | none => throw (.inOrder .unknownHandle start mark)

/-- What stands in front of a node: its anchor and its tag, in any order. -/
structure Properties where
  anchor : Option String
  tag : Option String

/-- The anchor and the tag of a node that starts at `start`. -/
def properties (start : Mark) : Reader Properties := do
  let first ← anchor?
  let tag ← tag?
  let second ← if first.isNone && tag.isSome then anchor? else pure none
  pure ⟨first <|> second, ← tag.mapM (expand start)⟩

/-- How the tags of the format itself start. -/
def formatStem : String := "tag:yaml.org,2002:"

/-- The tag of a node, of which one of the format is written in short. A lone exclamation
    mark is no tag. -/
def Properties.shortTag (p : Properties) : Option String :=
  p.tag.bind fun tag =>
    if tag == "!" then none
    else if tag.startsWith formatStem then some ("!!" ++ tag.drop formatStem.length)
    else some tag

/-- What `read` reads, which has an anchor if there is a name for it. The anchor is known
    from the start of the node on. -/
def anchored (name : Option String) (read : Reader Node) : Reader Node :=
  match name with
  | none => read
  | some name => do
    let number := (← get).anchored.size
    modify fun s =>
      { s with names := (name, number) :: s.names, anchored := s.anchored.push (.empty {}) }
    let n ← read
    modify fun s => { s with anchored := s.anchored.setIfInBounds number n }
    pure n

mutual

/-- One node. Blocks are allowed if `block`, and entries without indentation of their
    own if `bare`. -/
def node (block bare : Bool) : Nat → Reader Node
  | 0 => pure (.empty {})
  | n + 1 => do
    let t ← peek
    match t.kind with
    | .reference name =>
      let _ ← take
      match (← get).names.lookup name with
      | some number => pure (.reference (t.mark.line + 1) name number)
      | none => throw (.unknownAnchor name)
    | _ =>
      let p ← properties t.mark
      anchored p.anchor (content block bare t.mark p n)

/-- The node after its anchor and its tag, which start at `start`. It may be left out
    when there is one of them. -/
def content (block bare : Bool) (start : Mark) (p : Properties) : Nat → Reader Node
  | 0 => pure (.empty {})
  | n + 1 => do
    let t ← peek
    let line := start.line + 1
    let tag := p.shortTag
    match t.kind, block, bare with
    | .scalar style text, _, _ =>
      let _ ← take
      pure (.scalar line tag style text)
    | .flowSeqStart, _, _ =>
      let _ ← take
      pure (.seq line tag (← flowItems t.mark true n))
    | .flowMapStart, _, _ =>
      let _ ← take
      pure (.map line tag (← flowEntries t.mark true n))
    | .blockEntry, _, true => pure (.seq line tag (← bareItems n))
    | .blockSeqStart, true, _ =>
      let _ ← take
      pure (.seq line tag (← blockItems t.mark n))
    | .blockMapStart, true, _ =>
      let _ ← take
      pure (.map line tag (← blockEntries t.mark n))
    | _, _, _ =>
      if p.anchor.isSome || p.tag.isSome then pure (.scalar line tag .plain "")
      else fail .noContent start

/-- The entries of a block sequence. -/
def blockItems (context : Mark) : Nat → Reader (List Node)
  | 0 => pure []
  | n + 1 => do
    let t ← peek
    if t.kind = .blockEntry then
      let _ ← take
      let item ← orEmpty [.blockEntry, .blockEnd] t.mark (node true false n)
      pure (item :: (← blockItems context n))
    else if t.kind = .blockEnd then
      let _ ← take
      pure []
    else fail .noDash context

/-- The entries of a sequence in the column of the key before it. -/
def bareItems : Nat → Reader (List Node)
  | 0 => pure []
  | n + 1 => do
    let t ← peek
    if t.kind = .blockEntry then
      let _ ← take
      let item ← orEmpty [.blockEntry, .key, .value, .blockEnd] t.mark (node true false n)
      pure (item :: (← bareItems n))
    else pure []

/-- The keys and values of a block mapping. -/
def blockEntries (context : Mark) : Nat → Reader (List (Node × Node))
  | 0 => pure []
  | n + 1 => do
    let t ← peek
    if t.kind = .key then
      let _ ← take
      let key ← orEmpty [.key, .value, .blockEnd] t.mark (node true true n)
      let v ← peek
      let value ←
        if v.kind = .value then do
          let _ ← take
          orEmpty [.key, .value, .blockEnd] v.mark (node true true n)
        else pure (.empty v.mark)
      pure ((key, value) :: (← blockEntries context n))
    else if t.kind = .blockEnd then
      let _ ← take
      pure []
    else fail .noKey context

/-- The items of a sequence in brackets. -/
def flowItems (context : Mark) (first : Bool) : Nat → Reader (List Node)
  | 0 => pure []
  | n + 1 => do
    if (← peek).kind = .flowSeqEnd then
      let _ ← take
      return []
    if !first then
      if (← peek).kind = .flowEntry then
        let _ ← take
      else fail .noSeqEnd context
    let t ← peek
    if t.kind = .flowSeqEnd then
      let _ ← take
      pure []
    else
      let item ← if t.kind = .key then pairItem n else node false false n
      pure (item :: (← flowItems context false n))

/-- A key with its value among the items of a sequence in brackets. -/
def pairItem : Nat → Reader Node
  | 0 => pure (.empty {})
  | n + 1 => do
    let t ← take
    let k ← peek
    let key ←
      if [.value, .flowEntry, .flowSeqEnd].contains k.kind then do
        let _ ← take
        pure (.empty k.mark)
      else node false false n
    let v ← peek
    let value ←
      if v.kind = .value then do
        let _ ← take
        orEmpty [.flowEntry, .flowSeqEnd] (← peek).mark (node false false n)
      else pure (.empty v.mark)
    pure (.map (t.mark.line + 1) none [(key, value)])

/-- The keys and values of a mapping in brackets. -/
def flowEntries (context : Mark) (first : Bool) : Nat → Reader (List (Node × Node))
  | 0 => pure []
  | n + 1 => do
    if (← peek).kind = .flowMapEnd then
      let _ ← take
      return []
    if !first then
      if (← peek).kind = .flowEntry then
        let _ ← take
      else fail .noMapEnd context
    let t ← peek
    if t.kind = .flowMapEnd then
      let _ ← take
      pure []
    else
      let entry ←
        if t.kind = .key then do
          let _ ← take
          let key ← orEmpty [.value, .flowEntry, .flowMapEnd] (← peek).mark (node false false n)
          let v ← peek
          if v.kind = .value then
            let _ ← take
            pure (key, ← orEmpty [.flowEntry, .flowMapEnd] (← peek).mark (node false false n))
          else pure (key, .empty v.mark)
        else do
          let key ← node false false n
          pure (key, .empty (← peek).mark)
      pure (entry :: (← flowEntries context false n))

end

/-- The handles that are defined in every document. -/
def commonHandles : List (String × String) := [("!", "!"), ("!!", formatStem)]

/-- The directives in front of a document, with a bound on their number. The first
    argument tells whether the version was given. -/
def directives (versioned : Bool) : Nat → Reader Unit
  | 0 => pure ()
  | n + 1 => do
    let t ← peek
    match t.kind with
    | .version major minor =>
      if versioned then fail .repeatedVersion {}
      if major ≠ 1 || minor ≠ 1 then fail .otherVersion {}
      let _ ← take
      directives true n
    | .handle name stem =>
      if ((← get).handles.lookup name).isSome then fail .repeatedHandle {}
      modify fun s => { s with handles := (name, stem) :: s.handles }
      let _ ← take
      directives versioned n
    | _ => modify fun s => { s with handles := s.handles ++ commonHandles }

/-- Whether a token comes behind the content of a document. -/
def endsDocument : Token.Kind → Bool
  | .version .. | .handle .. | .documentStart | .documentEnd | .streamEnd => true
  | _ => false

/-- Whether a token comes in front of the content of a document. -/
def startsDocument : Token.Kind → Bool
  | .version .. | .handle .. | .documentStart => true
  | _ => false

/-- The content of a document after its marker. -/
def marked (n : Nat) : Reader Node := do
  let t ← peek
  if endsDocument t.kind then pure (.empty t.mark) else node true false n

/-- The first document. There is none at the end of the text. -/
def document (n : Nat) : Reader (Option Document) := do
  let t ← peek
  if t.kind = .streamEnd then return none
  directives false n
  let root ←
    if startsDocument t.kind then do
      if (← peek).kind ≠ .documentStart then fail .noDocumentStart {}
      let _ ← take
      marked n
    else node true false n
  let _ ← peek
  pure (some ⟨root, (← get).anchored⟩)

end Reader

/-- The first document of a text. A character gives rise to at most four tokens, and a
    token to at most three levels of reading, so that the number of characters bounds
    the nesting. -/
def parse (text : String) : Except Fault (Option Document) :=
  let lexer := Lexer.ofText text
  ((Reader.document (12 * (lexer.stop.index + 2))).run { lexer }).map Prod.fst

end Incognita.Yaml
