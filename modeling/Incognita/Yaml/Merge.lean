import Incognita.Yaml.Datum

namespace Incognita.Yaml

/-!
# Yaml — mappings that go into others

The value of a merge key is a mapping, a reference to one, or a sequence of both. Their
entries belong to the mapping with the key too, and these mappings may have merge keys
themselves.

* `mergeValue?` — the value of the merge key of a mapping;
* `Document.merged` — the mappings that a value of a merge key leads to, in their order;
* `Document.layers` — a mapping and those that go into it.
-/

/-- The keys and values of a mapping. -/
abbrev Entries := List (Node × Node)

/-- The value of the last merge key, if there is one. -/
def mergeValue? : Entries → Option Node
  | [] => none
  | (k, v) :: entries => mergeValue? entries <|> if k.isMerge then some v else none

/-- The value of a merge key is smaller than its mapping. -/
theorem sizeOf_mergeValue? {entries : Entries} {v : Node} (h : mergeValue? entries = some v) :
    sizeOf v < sizeOf entries := by
  induction entries with
  | nil => simp [mergeValue?] at h
  | cons e entries ih =>
    obtain ⟨k, w⟩ := e
    rw [mergeValue?] at h
    cases hm : mergeValue? entries with
    | some u =>
      have : sizeOf v < sizeOf entries := ih (by simpa [hm] using h)
      simp only [List.cons.sizeOf_spec]
      omega
    | none =>
      obtain ⟨-, rfl⟩ : k.isMerge = true ∧ w = v := by simpa [hm] using h
      simp only [List.cons.sizeOf_spec, Prod.mk.sizeOf_spec]
      omega

namespace Document

/-- The mappings that the value of a merge key leads to, up to the first flaw. A mapping
    with repeated keys leads to no others. References are followed to the anchors `free`,
    those on the way to the value being left out. -/
def merged (d : Document) (free : List Nat) (v : Node) : List (Except Flaw Entries) :=
  match v with
  | .map _ _ entries =>
    .ok entries ::
      if (repeated entries).isEmpty then
        match h : mergeValue? entries with
        | some v =>
          have := sizeOf_mergeValue? h
          d.merged free v
        | none => []
      else []
  | .reference _ name anchor =>
    match d.anchored[anchor]? with
    | some (.map line tag entries) =>
      if h : anchor ∈ free then
        have := List.length_erase_of_mem h
        have := List.length_pos_of_mem h
        d.merged (free.erase anchor) (.map line tag entries)
      else [.error (.selfContaining name)]
    | _ => [.error .noMapping]
  | .seq _ _ items =>
    items.attach.flatMap fun ⟨item, h⟩ =>
      have := List.sizeOf_lt_of_mem h
      match item with
      | .map line tag entries => d.merged free (.map line tag entries)
      | .reference line name anchor => d.merged free (.reference line name anchor)
      | .scalar .. | .seq .. => [.error .noMapping]
  | .scalar .. => [.error .noMapping]
termination_by (free.length, sizeOf v)
decreasing_by
  · exact Prod.Lex.right _ (by simp only [Node.map.sizeOf_spec]; omega)
  · exact Prod.Lex.left _ _ (by omega)
  · exact Prod.Lex.right _ (by simp only [Node.seq.sizeOf_spec]; omega)
  · exact Prod.Lex.right _ (by simp only [Node.seq.sizeOf_spec]; omega)

/-- A mapping and those that go into it, up to the first flaw. -/
def layers (d : Document) (entries : Entries) : List (Except Flaw Entries) :=
  d.merged (List.range d.anchored.size) (.map 0 none entries)

end Document

end Incognita.Yaml
