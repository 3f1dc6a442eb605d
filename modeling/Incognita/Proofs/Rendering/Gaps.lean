import Incognita.Proofs.Parts
import Incognita.Proofs.Shape
import Incognita.Tree.Outline

namespace Incognita

/-!
# Tree — the gaps of a partial tree

What a faulty source leaves open are expressions and the values of integers.  With something put
into these gaps a tree that was read is complete.  As source text a missing expression is nothing,
and in prefix form it is a mark, as is an integer without a value: a partial tree is written out
like a complete one that has in its gaps what is written like that.

* `Filling` — what is put into the gaps of a tree;
* `Expr.fill`, `Stmt.fill`, `Block.fill`, `Program.fill` — the tree with its gaps filled;
* `Program.complete_fill` — an intact tree is complete but for its gaps;
* `Program.text_fill`, `Program.outline_fill` — how gaps are written out.
-/

/-- What is put into the gaps of a tree: in the place of a missing expression, and in the place of
    an integer without a value. -/
structure Filling where
  expr : Expr
  int : Token → Expr

namespace Filling

/-- What is put into the gaps has none. -/
structure Complete (f : Filling) : Prop where
  expr : f.expr.Complete
  int : ∀ t, (f.int t).Complete

/-- In source text, what is put into the gaps is nothing, or the literal of an integer. -/
structure Unwritten (f : Filling) : Prop where
  expr : f.expr.text = some ""
  int : ∀ t, (f.int t).text = some t.literal

/-- In prefix form, what is put into the gaps is the mark of something missing. -/
structure Marked (f : Filling) : Prop where
  expr : f.expr.outline = some absent
  int : ∀ t, (f.int t).outline = some absent

/-- Fills the gaps with an empty name, and gives integers a value. -/
def blank : Filling := ⟨.ident ⟨⟨.ident, ""⟩, ""⟩, fun t => .int t (some 0)⟩

/-- Fills the gaps with a name that is spelled like the mark. -/
def mark : Filling :=
  ⟨.ident ⟨⟨.ident, absent⟩, absent⟩, fun _ => .ident ⟨⟨.ident, absent⟩, absent⟩⟩

end Filling

mutual

/-- The expression with its gaps filled. -/
def Expr.fill (f : Filling) : Expr → Expr
  | .missing => f.expr
  | .int t none => f.int t
  | .int t (some n) => .int t (some n)
  | .ident x => .ident x
  | .bool t b => .bool t b
  | .str t v => .str t v
  | .unary t op e => .unary t op (e.fill f)
  | .binary t l op r => .binary t (l.fill f) op (r.fill f)
  | .choice t c a b => .choice t (c.fill f) (a.fill f) (b.fill f)
  | .loop t c b => .loop t (c.fill f) (b.fill f)
  | .fn t ps b => .fn t ps (b.fill f)
  | .call t g as => .call t (g.fill f) (Expr.fillAll f as)

/-- The expressions with their gaps filled. -/
def Expr.fillAll (f : Filling) : List Expr → List Expr
  | [] => []
  | e :: es => e.fill f :: Expr.fillAll f es

/-- The statement with its gaps filled. -/
def Stmt.fill (f : Filling) : Stmt → Stmt
  | .missing => .missing
  | .bind t x e => .bind t x (e.fill f)
  | .ret t e => .ret t (e.fill f)
  | .brk t => .brk t
  | .expr t e => .expr t (e.fill f)
  | .block b => .block (b.fill f)

/-- The statements with their gaps filled. -/
def Stmt.fillAll (f : Filling) : List Stmt → List Stmt
  | [] => []
  | s :: ss => s.fill f :: Stmt.fillAll f ss

/-- The block with its gaps filled. -/
def Block.fill (f : Filling) : Block → Block
  | .missing => .missing
  | .mk t ss => .mk t (Stmt.fillAll f ss)

end

/-- The program with its gaps filled. -/
def Program.fill (f : Filling) (p : Program) : Program := ⟨Stmt.fillAll f p.stmts⟩

section

variable {f : Filling}

/-! ### Nothing but the gaps is missing -/

mutual

/-- **An expression without further omissions is complete once its gaps are filled.** -/
theorem Expr.complete_fill (hf : f.Complete) : (e : Expr) → e.Every Node.Whole →
    (e.fill f).Complete
  | .missing, _ => hf.expr
  | .int t none, _ => hf.int t
  | .int _ (some _), _ => by simp [Expr.fill, Expr.Complete]
  | .ident _, _ | .bool _ _, _ | .str _ _, _ => trivial
  | .unary _ _ e, h => e.complete_fill hf h.2
  | .binary _ l _ r, h => ⟨l.complete_fill hf h.2.1, r.complete_fill hf h.2.2⟩
  | .choice _ c a b, ⟨ha, hc, hparts, hparts'⟩ => by
    refine ⟨c.complete_fill hf hc, a.complete_fill hf ha hparts, ?_⟩
    -- Without an alternative there is nothing to complete in its place.
    by_cases hb : b = .missing
    · rw [hb]
      exact .inl rfl
    · exact .inr (b.complete_fill hf hb hparts')
  | .loop _ c b, ⟨hb, hc, hparts⟩ => ⟨c.complete_fill hf hc, b.complete_fill hf hb hparts⟩
  | .fn _ _ b, ⟨⟨hps, hb⟩, hparts⟩ => ⟨hps, b.complete_fill hf hb hparts⟩
  | .call _ g as, h => ⟨g.complete_fill hf h.2.1, Expr.completeAll_fillAll hf as h.2.2⟩

/-- The same for the arguments of a call. -/
theorem Expr.completeAll_fillAll (hf : f.Complete) : (es : List Expr) →
    Expr.EveryAll Node.Whole es → Expr.CompleteAll (Expr.fillAll f es)
  | [], _ => trivial
  | e :: es, h => ⟨e.complete_fill hf h.1, Expr.completeAll_fillAll hf es h.2⟩

/-- The same for a statement.  Its own gap, a bare return, is none that has to be filled. -/
theorem Stmt.complete_fill (hf : f.Complete) : (s : Stmt) → s.Every Node.Whole →
    (s.fill f).Complete
  | .missing, h => h.elim
  | .bind _ _ e, h => ⟨h.1, e.complete_fill hf h.2⟩
  | .ret _ e, h => .inr (e.complete_fill hf h.2)
  | .brk _, _ => trivial
  | .expr _ e, h => e.complete_fill hf h.2
  | .block b, h => b.complete_fill hf h.1 h.2

/-- The same for statements one after the other. -/
theorem Stmt.completeAll_fillAll (hf : f.Complete) : (ss : List Stmt) →
    Stmt.EveryAll Node.Whole ss → Stmt.CompleteAll (Stmt.fillAll f ss)
  | [], _ => trivial
  | s :: ss, h => ⟨s.complete_fill hf h.1, Stmt.completeAll_fillAll hf ss h.2⟩

/-- The same for a block, which filling does not bring into being. -/
theorem Block.complete_fill (hf : f.Complete) : (b : Block) → b ≠ .missing →
    b.Every Node.Whole → (b.fill f).Complete
  | .missing, hb, _ => absurd rfl hb
  | .mk _ ss, _, h => Stmt.completeAll_fillAll hf ss h

end

/-- **An intact tree is complete but for its gaps.**  This is what lets facts about complete trees
    be used for the trees of faulty sources. -/
theorem Program.complete_fill (hf : f.Complete) {p : Program} (h : p.Intact) :
    (p.fill f).Complete :=
  Stmt.completeAll_fillAll hf p.stmts h

/-! ### Gaps in source text -/

mutual

/-- **Filling does not show in source text** if what is put into the gaps is written like them. -/
theorem Expr.text_fill (hf : f.Unwritten) : (e : Expr) → (e.fill f).text = e.text
  | .missing => hf.expr
  | .int t none => hf.int t
  | .int _ (some _) | .ident _ | .bool _ _ | .str _ _ => rfl
  | .unary _ op e => by rw [Expr.fill, Expr.text, Expr.text, e.text_fill hf]
  | .binary _ l op r => by
    rw [Expr.fill, Expr.text, Expr.text, l.text_fill hf, r.text_fill hf]
  | .choice t c a b => by
    rw [Expr.fill, Expr.text, Expr.text, c.text_fill hf, a.textAfter_fill hf,
      b.textAfter_fill hf]
  | .loop t c b => by
    rw [Expr.fill, Expr.text, Expr.text, c.text_fill hf, b.textAfter_fill hf]
  | .fn t ps b => by rw [Expr.fill, Expr.text, Expr.text, b.textAfter_fill hf]
  | .call _ g as => by
    rw [Expr.fill, Expr.text, Expr.text, g.text_fill hf, Expr.texts_fillAll hf as]

/-- The same for the arguments of a call. -/
theorem Expr.texts_fillAll (hf : f.Unwritten) : (es : List Expr) →
    Expr.texts (Expr.fillAll f es) = Expr.texts es
  | [] => rfl
  | e :: es => by
    rw [Expr.fillAll, Expr.texts, Expr.texts, e.text_fill hf, Expr.texts_fillAll hf es]

/-- The same for a statement. -/
theorem Stmt.text_fill (hf : f.Unwritten) : (s : Stmt) → (s.fill f).text = s.text
  | .missing | .brk _ => rfl
  | .bind t x e => by rw [Stmt.fill, Stmt.text, Stmt.text, e.text_fill hf]
  | .ret t e => by rw [Stmt.fill, Stmt.text, Stmt.text, e.text_fill hf]
  | .expr _ e => by rw [Stmt.fill, Stmt.text, Stmt.text, e.text_fill hf]
  | .block b => by rw [Stmt.fill, Stmt.text, Stmt.text, b.textAfter_fill hf]

/-- The same for statements one after the other. -/
theorem Stmt.texts_fillAll (hf : f.Unwritten) : (ss : List Stmt) →
    Stmt.texts (Stmt.fillAll f ss) = Stmt.texts ss
  | [] => rfl
  | s :: ss => by
    rw [Stmt.fillAll, Stmt.texts, Stmt.texts, s.text_fill hf, Stmt.texts_fillAll hf ss]

/-- The same for a block after what leads to it. -/
theorem Block.textAfter_fill (hf : f.Unwritten) {lead : String} : (b : Block) →
    (b.fill f).textAfter lead = b.textAfter lead
  | .missing | .mk _ [] => rfl
  | .mk _ (s :: ss) => by
    rw [Block.fill, Stmt.fillAll, Block.textAfter, Block.textAfter, s.text_fill hf,
      Stmt.texts_fillAll hf ss]

end

/-- **In source text a gap is nothing.** -/
theorem Program.text_fill (hf : f.Unwritten) (p : Program) : (p.fill f).text = p.text := by
  rw [Program.text, Program.fill, Stmt.texts_fillAll hf, Program.text]

/-! ### Gaps in prefix form -/

mutual

/-- **Filling does not show in prefix form** if what is put into the gaps is the mark. -/
theorem Expr.outline_fill (hf : f.Marked) : (e : Expr) → (e.fill f).outline = e.outline
  | .missing => hf.expr
  | .int t none => hf.int t
  | .int _ (some _) | .ident _ | .bool _ _ | .str _ _ => rfl
  | .unary _ op e => by rw [Expr.fill, Expr.outline, Expr.outline, e.outline_fill hf]
  | .binary _ l op r => by
    rw [Expr.fill, Expr.outline, Expr.outline, l.outline_fill hf, r.outline_fill hf]
  | .choice _ c a b => by
    rw [Expr.fill, Expr.outline, Expr.outline, c.outline_fill hf, a.outline_fill hf,
      b.outlineElse_fill hf]
  | .loop _ c b => by
    rw [Expr.fill, Expr.outline, Expr.outline, c.outline_fill hf, b.outline_fill hf]
  | .fn _ ps b => by rw [Expr.fill, Expr.outline, Expr.outline, b.outline_fill hf]
  | .call _ g as => by
    rw [Expr.fill, Expr.outline, Expr.outline, g.outline_fill hf, Expr.outlines_fillAll hf as]

/-- The same for the arguments of a call. -/
theorem Expr.outlines_fillAll (hf : f.Marked) : (es : List Expr) →
    Expr.outlines (Expr.fillAll f es) = Expr.outlines es
  | [] => rfl
  | e :: es => by
    rw [Expr.fillAll, Expr.outlines, Expr.outlines, e.outline_fill hf,
      Expr.outlines_fillAll hf es]

/-- The same for a statement. -/
theorem Stmt.outline_fill (hf : f.Marked) : (s : Stmt) → (s.fill f).outline = s.outline
  | .missing | .brk _ => rfl
  | .bind _ x e => by rw [Stmt.fill, Stmt.outline, Stmt.outline, e.outline_fill hf]
  | .ret _ e => by rw [Stmt.fill, Stmt.outline, Stmt.outline, e.outline_fill hf]
  | .expr _ e => by rw [Stmt.fill, Stmt.outline, Stmt.outline, e.outline_fill hf]
  | .block b => by rw [Stmt.fill, Stmt.outline, Stmt.outline, b.outline_fill hf]

/-- The same for statements one after the other. -/
theorem Stmt.outlines_fillAll (hf : f.Marked) : (ss : List Stmt) →
    Stmt.outlines (Stmt.fillAll f ss) = Stmt.outlines ss
  | [] => rfl
  | s :: ss => by
    rw [Stmt.fillAll, Stmt.outlines, Stmt.outlines, s.outline_fill hf,
      Stmt.outlines_fillAll hf ss]

/-- The same for a block. -/
theorem Block.outline_fill (hf : f.Marked) : (b : Block) → (b.fill f).outline = b.outline
  | .missing => rfl
  | .mk _ ss => by rw [Block.fill, Block.outline, Block.outline, Stmt.outlines_fillAll hf ss]

/-- The same for an alternative, which is left out when it is missing. -/
theorem Block.outlineElse_fill (hf : f.Marked) : (b : Block) →
    (b.fill f).outlineElse = b.outlineElse
  | .missing => rfl
  | .mk _ ss => by
    rw [Block.fill, Block.outlineElse, Block.outlineElse, Stmt.outlines_fillAll hf ss]

end

/-- **In prefix form a gap is a mark.** -/
theorem Program.outline_fill (hf : f.Marked) (p : Program) : (p.fill f).outline = p.outline := by
  have hall : ∀ ss : List Stmt,
      Stmt.outlineLines (Stmt.fillAll f ss) = Stmt.outlineLines ss := by
    intro ss
    induction ss with
    | nil => rfl
    | cons s ss ih =>
      rw [Stmt.fillAll, Stmt.outlineLines, Stmt.outlineLines, s.outline_fill hf, ih]
  rw [Program.outline, Program.fill, hall, Program.outline]

end

end Incognita
