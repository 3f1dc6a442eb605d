import Incognita.Proofs.Parts
import Incognita.Tree.Outline

namespace Incognita

/-!
# Tree — which trees can be written out

Whoever writes a tree out looks whether an expression, a statement, a block or the name of a
binding is there, but takes the parameters of functions for granted.  So a tree is written out
unless some function in it lacks a parameter, however deep in the tree that function is.

* `Node.Named` — a function that lacks no parameter;
* `Expr.isSome_text_iff`, `Expr.isSome_outline_iff` — an expression has a text, and an outline, if
  and only if none of its functions lacks a parameter, and the same for statements and blocks;
* `Node.Rendered` — a tree that can be written out in both forms;
* `Program.rendered_of_named` — such a program and all its parts can be.
-/

/-- The tree is no function that lacks a parameter. -/
def Node.Named : Node → Prop
  | .expr (.fn _ ps _) => none ∉ ps
  | _ => True

/-- What is whole lacks no parameter. -/
theorem Node.Whole.named {n : Node} (h : n.Whole) : n.Named := by
  match n with
  | .expr (.fn _ _ _) => exact h.1
  | .program _ | .stmt _ => trivial
  | .expr .missing | .expr (.ident _) | .expr (.int _ _) | .expr (.bool _ _) | .expr (.str _ _)
  | .expr (.unary _ _ _) | .expr (.binary _ _ _ _) | .expr (.choice _ _ _ _)
  | .expr (.loop _ _ _) | .expr (.call _ _ _) => trivial

/-- Parameters are all there if none is missing. -/
theorem Ident.isSome_present?_iff {ps : List (Option Ident)} :
    (present? ps).isSome = true ↔ none ∉ ps := by
  rw [← Option.ne_none_iff_isSome]
  exact not_congr present?_eq_none_iff

/-- What is put together of two parts is there if both of them are. -/
theorem isSome_bind_iff {α β : Type} {o : Option α} {f : α → Option β} {p : Prop}
    (h : ∀ a, (f a).isSome = true ↔ p) : (o >>= f).isSome = true ↔ o.isSome = true ∧ p := by
  cases o with
  | none => simp
  | some a => simpa using h a

/-- What is made of one part is there if the part is. -/
theorem isSome_bind_some_iff {α β : Type} {o : Option α} {f : α → β} :
    (o >>= fun a => some (f a)).isSome = true ↔ o.isSome = true := by
  cases o <;> simp

/-! ### As source text -/

mutual

/-- **An expression has a text unless one of its functions lacks a parameter.**  By induction on the
    expression: a text is put together of those of its parts, and at a function of those of its
    parameters. -/
theorem Expr.isSome_text_iff : (e : Expr) → (e.text.isSome = true ↔ e.Every Node.Named)
  | .missing | .ident _ | .int _ _ | .bool _ _ | .str _ _ => iff_of_true rfl trivial
  | .unary _ op e => by
    rw [Expr.text, isSome_bind_some_iff, e.isSome_text_iff]
    exact (and_iff_right trivial).symm
  | .binary _ l op r => by
    rw [Expr.text, isSome_bind_iff fun _ => isSome_bind_some_iff, l.isSome_text_iff,
      r.isSome_text_iff]
    exact (and_iff_right trivial).symm
  | .choice _ c a b => by
    rw [Expr.text, isSome_bind_iff fun _ => isSome_bind_iff fun _ => isSome_bind_some_iff,
      c.isSome_text_iff, a.isSome_textAfter_iff, b.isSome_textAfter_iff]
    exact (and_iff_right trivial).symm
  | .loop _ c b => by
    rw [Expr.text, isSome_bind_iff fun _ => isSome_bind_some_iff, c.isSome_text_iff,
      b.isSome_textAfter_iff]
    exact (and_iff_right trivial).symm
  -- Here alone something of the node itself is asked for, its parameters.
  | .fn t ps b => by
    rw [Expr.text, isSome_bind_iff fun _ => isSome_bind_some_iff, signature, isSome_bind_some_iff,
      Ident.isSome_present?_iff, b.isSome_textAfter_iff]
    exact Iff.rfl
  | .call _ f as => by
    rw [Expr.text, isSome_bind_iff fun _ => isSome_bind_some_iff, f.isSome_text_iff,
      Expr.isSome_texts_iff as]
    exact (and_iff_right trivial).symm

/-- The same for the arguments of a call. -/
theorem Expr.isSome_texts_iff : (es : List Expr) →
    ((Expr.texts es).isSome = true ↔ Expr.EveryAll Node.Named es)
  | [] => iff_of_true rfl trivial
  | e :: es => by
    rw [Expr.texts, isSome_bind_iff fun _ => isSome_bind_some_iff, e.isSome_text_iff,
      Expr.isSome_texts_iff es]
    exact Iff.rfl

/-- The same for a statement.  The name of a binding may be missing. -/
theorem Stmt.isSome_text_iff : (s : Stmt) → (s.text.isSome = true ↔ s.Every Node.Named)
  | .missing | .brk _ => iff_of_true rfl trivial
  | .bind _ _ e => by
    rw [Stmt.text, isSome_bind_some_iff, e.isSome_text_iff]
    exact (and_iff_right trivial).symm
  | .ret _ e => by
    rw [Stmt.text, isSome_bind_some_iff, e.isSome_text_iff]
    exact (and_iff_right trivial).symm
  | .expr _ e => by
    rw [Stmt.text, e.isSome_text_iff]
    exact (and_iff_right trivial).symm
  | .block b => by
    rw [Stmt.text, b.isSome_textAfter_iff]
    exact (and_iff_right trivial).symm

/-- The same for statements one after the other. -/
theorem Stmt.isSome_texts_iff : (ss : List Stmt) →
    ((Stmt.texts ss).isSome = true ↔ Stmt.EveryAll Node.Named ss)
  | [] => iff_of_true rfl trivial
  | s :: ss => by
    rw [Stmt.texts, isSome_bind_iff fun _ => isSome_bind_some_iff, s.isSome_text_iff,
      Stmt.isSome_texts_iff ss]
    exact Iff.rfl

/-- The same for a block, and for one that is missing, which has the empty text. -/
theorem Block.isSome_textAfter_iff {lead : String} : (b : Block) →
    ((b.textAfter lead).isSome = true ↔ b.Every Node.Named)
  | .missing | .mk _ [] => iff_of_true rfl trivial
  | .mk _ (s :: ss) => by
    rw [Block.textAfter, isSome_bind_iff fun _ => isSome_bind_some_iff, s.isSome_text_iff,
      Stmt.isSome_texts_iff ss]
    exact Iff.rfl

end

/-! ### In prefix form -/

mutual

/-- **An expression has an outline unless one of its functions lacks a parameter.**  The outline
    drops the tokens and keeps the parameters, so what it asks for is the same. -/
theorem Expr.isSome_outline_iff : (e : Expr) → (e.outline.isSome = true ↔ e.Every Node.Named)
  | .missing | .ident _ | .int _ none | .int _ (some _) | .bool _ _ | .str _ _ =>
    iff_of_true rfl trivial
  | .unary _ op e => by
    rw [Expr.outline, isSome_bind_some_iff, e.isSome_outline_iff]
    exact (and_iff_right trivial).symm
  | .binary _ l op r => by
    rw [Expr.outline, isSome_bind_iff fun _ => isSome_bind_some_iff, l.isSome_outline_iff,
      r.isSome_outline_iff]
    exact (and_iff_right trivial).symm
  | .choice _ c a b => by
    rw [Expr.outline, isSome_bind_iff fun _ => isSome_bind_iff fun _ => isSome_bind_some_iff,
      c.isSome_outline_iff, a.isSome_outline_iff, b.isSome_outlineElse_iff]
    exact (and_iff_right trivial).symm
  | .loop _ c b => by
    rw [Expr.outline, isSome_bind_iff fun _ => isSome_bind_some_iff, c.isSome_outline_iff,
      b.isSome_outline_iff]
    exact (and_iff_right trivial).symm
  -- Here alone something of the node itself is asked for, its parameters.
  | .fn t ps b => by
    rw [Expr.outline, isSome_bind_iff fun _ => isSome_bind_some_iff, Ident.isSome_present?_iff,
      b.isSome_outline_iff]
    exact Iff.rfl
  | .call _ f as => by
    rw [Expr.outline, isSome_bind_iff fun _ => isSome_bind_some_iff, f.isSome_outline_iff,
      Expr.isSome_outlines_iff as]
    exact (and_iff_right trivial).symm

/-- The same for the arguments of a call. -/
theorem Expr.isSome_outlines_iff : (es : List Expr) →
    ((Expr.outlines es).isSome = true ↔ Expr.EveryAll Node.Named es)
  | [] => iff_of_true rfl trivial
  | e :: es => by
    rw [Expr.outlines, isSome_bind_iff fun _ => isSome_bind_some_iff, e.isSome_outline_iff,
      Expr.isSome_outlines_iff es]
    exact Iff.rfl

/-- The same for a statement. -/
theorem Stmt.isSome_outline_iff : (s : Stmt) → (s.outline.isSome = true ↔ s.Every Node.Named)
  | .missing | .brk _ => iff_of_true rfl trivial
  | .bind _ _ e => by
    rw [Stmt.outline, isSome_bind_some_iff, e.isSome_outline_iff]
    exact (and_iff_right trivial).symm
  | .ret _ e => by
    rw [Stmt.outline, isSome_bind_some_iff, e.isSome_outline_iff]
    exact (and_iff_right trivial).symm
  | .expr _ e => by
    rw [Stmt.outline, e.isSome_outline_iff]
    exact (and_iff_right trivial).symm
  | .block b => by
    rw [Stmt.outline, b.isSome_outline_iff]
    exact (and_iff_right trivial).symm

/-- The same for statements one after the other. -/
theorem Stmt.isSome_outlines_iff : (ss : List Stmt) →
    ((Stmt.outlines ss).isSome = true ↔ Stmt.EveryAll Node.Named ss)
  | [] => iff_of_true rfl trivial
  | s :: ss => by
    rw [Stmt.outlines, isSome_bind_iff fun _ => isSome_bind_some_iff, s.isSome_outline_iff,
      Stmt.isSome_outlines_iff ss]
    exact Iff.rfl

/-- The same for a block. -/
theorem Block.isSome_outline_iff : (b : Block) →
    (b.outline.isSome = true ↔ b.Every Node.Named)
  | .missing => iff_of_true rfl trivial
  | .mk _ ss => by
    rw [Block.outline, isSome_bind_some_iff, Stmt.isSome_outlines_iff ss]
    exact Iff.rfl

/-- The same for an alternative. -/
theorem Block.isSome_outlineElse_iff : (b : Block) →
    (b.outlineElse.isSome = true ↔ b.Every Node.Named)
  | .missing => iff_of_true rfl trivial
  | .mk _ ss => by
    rw [Block.outlineElse, isSome_bind_some_iff, Stmt.isSome_outlines_iff ss]
    exact Iff.rfl

end

/-- The lines of a program are there as its statements are. -/
theorem Stmt.isSome_outlineLines_iff {ss : List Stmt} :
    (Stmt.outlineLines ss).isSome = true ↔ Stmt.EveryAll Node.Named ss := by
  induction ss with
  | nil => exact iff_of_true rfl trivial
  | cons s ss ih =>
    rw [Stmt.outlineLines, isSome_bind_iff fun _ => isSome_bind_some_iff, s.isSome_outline_iff, ih]
    exact Iff.rfl

/-! ### Whole trees -/

/-- The tree can be written out, as source text and in prefix form. -/
def Node.Rendered (n : Node) : Prop :=
  (∃ text, n.text = some text) ∧ ∃ outline, n.outline = some outline

/-- **A tree can be written out unless one of its functions lacks a parameter**, and the two forms
    are alike in that. -/
theorem Node.rendered_iff {n : Node} : n.Rendered ↔ n.Every Node.Named := by
  rw [Rendered, ← Option.isSome_iff_exists, ← Option.isSome_iff_exists]
  cases n with
  | program p =>
    rw [text, Program.text, Option.isSome_map, Stmt.isSome_texts_iff, outline, Program.outline,
      Option.isSome_map, Stmt.isSome_outlineLines_iff]
    exact and_self_iff
  | stmt st =>
    rw [text, st.isSome_text_iff, outline, st.isSome_outline_iff]
    exact and_self_iff
  | expr e =>
    rw [text, e.isSome_text_iff, outline, e.isSome_outline_iff]
    exact and_self_iff

end Incognita
