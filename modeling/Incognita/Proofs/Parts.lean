import Incognita.Proofs.Tasks
import Incognita.Value

namespace Incognita

/-!
# Tree — what every part of a tree is like

* `Expr.Every`, `Stmt.Every`, `Block.Every`, `Program.Every`, `Node.Every`, `Closure.Every` — every
  part satisfies a predicate, those in the bodies of functions included;
* `Node.IsLoop`, `Program.LoopFree`, `Closure.LoopFree` — trees without loops;
* `Node.Whole`, `Program.Intact`, `Closure.Intact` — trees that lack nothing without which an
  evaluation could not go on.  Expressions may be missing, but neither the name of a binding, nor a
  parameter, nor a block, the alternative of a choice apart;
* `Parser.run_intact` — whatever the faults of a source, what is read of it is intact;
* `intact_of_parse` — hence every program that is read is intact.
-/

/-! ### Every part of a tree -/

mutual

/-- Every part of the expression satisfies `p`. -/
def Expr.Every (p : Node → Prop) : Expr → Prop
  | .missing => p (.expr .missing)
  | .ident x => p (.expr (.ident x))
  | .int t v => p (.expr (.int t v))
  | .bool t b => p (.expr (.bool t b))
  | .str t v => p (.expr (.str t v))
  | .unary t op e => p (.expr (.unary t op e)) ∧ e.Every p
  | .binary t l op r => p (.expr (.binary t l op r)) ∧ l.Every p ∧ r.Every p
  | .choice t c a b => p (.expr (.choice t c a b)) ∧ c.Every p ∧ a.Every p ∧ b.Every p
  | .loop t c b => p (.expr (.loop t c b)) ∧ c.Every p ∧ b.Every p
  | .fn t ps b => p (.expr (.fn t ps b)) ∧ b.Every p
  | .call t f as => p (.expr (.call t f as)) ∧ f.Every p ∧ Expr.EveryAll p as

/-- Every part of the expressions satisfies `p`. -/
def Expr.EveryAll (p : Node → Prop) : List Expr → Prop
  | [] => True
  | e :: es => e.Every p ∧ Expr.EveryAll p es

/-- Every part of the statement satisfies `p`. -/
def Stmt.Every (p : Node → Prop) : Stmt → Prop
  | .missing => p (.stmt .missing)
  | .bind t x e => p (.stmt (.bind t x e)) ∧ e.Every p
  | .ret t e => p (.stmt (.ret t e)) ∧ e.Every p
  | .brk t => p (.stmt (.brk t))
  | .expr t e => p (.stmt (.expr t e)) ∧ e.Every p
  | .block b => p (.stmt (.block b)) ∧ b.Every p

/-- Every part of the statements satisfies `p`. -/
def Stmt.EveryAll (p : Node → Prop) : List Stmt → Prop
  | [] => True
  | s :: ss => s.Every p ∧ Stmt.EveryAll p ss

/-- Every part of the block satisfies `p`. -/
def Block.Every (p : Node → Prop) : Block → Prop
  | .missing => True
  | .mk _ ss => Stmt.EveryAll p ss

end

/-- Every part of the program satisfies `p`. -/
def Program.Every (p : Node → Prop) (program : Program) : Prop := Stmt.EveryAll p program.stmts

/-- Every part of the tree satisfies `p`. -/
def Node.Every (p : Node → Prop) : Node → Prop
  | .program q => q.Every p
  | .stmt st => st.Every p
  | .expr e => e.Every p

/-- Every part of the function literal that the closure was made from satisfies `p`. -/
def Closure.Every (p : Node → Prop) (c : Closure) : Prop :=
  (Expr.fn c.token c.params c.body).Every p

section

variable {p : Node → Prop}

mutual

/-- What holds of all trees holds of every part of one. -/
theorem Expr.every_of_forall (h : ∀ n, p n) : (e : Expr) → e.Every p
  | .missing | .ident _ | .int _ _ | .bool _ _ | .str _ _ => h _
  | .unary _ _ e => ⟨h _, e.every_of_forall h⟩
  | .binary _ l _ r => ⟨h _, l.every_of_forall h, r.every_of_forall h⟩
  | .choice _ c a b => ⟨h _, c.every_of_forall h, a.every_of_forall h, b.every_of_forall h⟩
  | .loop _ c b => ⟨h _, c.every_of_forall h, b.every_of_forall h⟩
  | .fn _ _ b => ⟨h _, b.every_of_forall h⟩
  | .call _ f as => ⟨h _, f.every_of_forall h, Expr.everyAll_of_forall h as⟩

/-- The same for the arguments of a call. -/
theorem Expr.everyAll_of_forall (h : ∀ n, p n) : (es : List Expr) → Expr.EveryAll p es
  | [] => trivial
  | e :: es => ⟨e.every_of_forall h, Expr.everyAll_of_forall h es⟩

/-- The same for a statement. -/
theorem Stmt.every_of_forall (h : ∀ n, p n) : (s : Stmt) → s.Every p
  | .missing | .brk _ => h _
  | .bind _ _ e | .ret _ e | .expr _ e => ⟨h _, e.every_of_forall h⟩
  | .block b => ⟨h _, b.every_of_forall h⟩

/-- The same for the statements of a block. -/
theorem Stmt.everyAll_of_forall (h : ∀ n, p n) : (ss : List Stmt) → Stmt.EveryAll p ss
  | [] => trivial
  | s :: ss => ⟨s.every_of_forall h, Stmt.everyAll_of_forall h ss⟩

/-- The same for a block. -/
theorem Block.every_of_forall (h : ∀ n, p n) : (b : Block) → b.Every p
  | .missing => trivial
  | .mk _ ss => Stmt.everyAll_of_forall h ss

end

section

variable {q : Node → Prop}

mutual

/-- What follows for every tree follows for every part of one. -/
theorem Expr.Every.mono (h : ∀ n, p n → q n) : {e : Expr} → e.Every p → e.Every q
  | .missing, he | .ident _, he | .int _ _, he | .bool _ _, he | .str _ _, he => h _ he
  | .unary _ _ _, ⟨hn, he⟩ => ⟨h _ hn, he.mono h⟩
  | .binary _ _ _ _, ⟨hn, hl, hr⟩ => ⟨h _ hn, hl.mono h, hr.mono h⟩
  | .choice _ _ _ _, ⟨hn, hc, ha, hb⟩ =>
    ⟨h _ hn, hc.mono h, Block.Every.mono h ha, Block.Every.mono h hb⟩
  | .loop _ _ _, ⟨hn, hc, hb⟩ => ⟨h _ hn, hc.mono h, Block.Every.mono h hb⟩
  | .fn _ _ _, ⟨hn, hb⟩ => ⟨h _ hn, Block.Every.mono h hb⟩
  | .call _ _ _, ⟨hn, hf, has⟩ => ⟨h _ hn, hf.mono h, Expr.EveryAll.mono h has⟩

/-- The same for the arguments of a call. -/
theorem Expr.EveryAll.mono (h : ∀ n, p n → q n) : {es : List Expr} →
    Expr.EveryAll p es → Expr.EveryAll q es
  | [], _ => trivial
  | _ :: _, ⟨he, hes⟩ => ⟨he.mono h, Expr.EveryAll.mono h hes⟩

/-- The same for a statement. -/
theorem Stmt.Every.mono (h : ∀ n, p n → q n) : {s : Stmt} → s.Every p → s.Every q
  | .missing, hs | .brk _, hs => h _ hs
  | .bind _ _ _, ⟨hn, he⟩ | .ret _ _, ⟨hn, he⟩ | .expr _ _, ⟨hn, he⟩ => ⟨h _ hn, he.mono h⟩
  | .block _, ⟨hn, hb⟩ => ⟨h _ hn, Block.Every.mono h hb⟩

/-- The same for the statements of a block. -/
theorem Stmt.EveryAll.mono (h : ∀ n, p n → q n) : {ss : List Stmt} →
    Stmt.EveryAll p ss → Stmt.EveryAll q ss
  | [], _ => trivial
  | _ :: _, ⟨hs, hss⟩ => ⟨hs.mono h, Stmt.EveryAll.mono h hss⟩

/-- The same for a block. -/
theorem Block.Every.mono (h : ∀ n, p n → q n) : {b : Block} → b.Every p → b.Every q
  | .missing, _ => trivial
  | .mk _ _, hss => Stmt.EveryAll.mono h hss

end

end

/-- What holds of two lists of statements holds of both of them together. -/
theorem Stmt.everyAll_append {ss ss' : List Stmt} (h : Stmt.EveryAll p ss)
    (h' : Stmt.EveryAll p ss') : Stmt.EveryAll p (ss ++ ss') := by
  induction ss with
  | nil => exact h'
  | cons s ss ih => exact ⟨h.1, ih h.2⟩

end

/-! ### Loops and missing parts -/

namespace Node

/-- The tree is a loop. -/
def IsLoop : Node → Prop
  | .expr (.loop _ _ _) => True
  | _ => False

/-- The tree has the blocks and the names that it needs to be evaluated. -/
def Whole : Node → Prop
  | .expr (.choice _ _ a _) => a ≠ .missing
  | .expr (.loop _ _ b) | .stmt (.block b) => b ≠ .missing
  | .expr (.fn _ ps b) => none ∉ ps ∧ b ≠ .missing
  | .stmt (.bind _ x _) => x ≠ none
  | .stmt .missing => False
  | _ => True

end Node

/-- No part of the program is a loop. -/
def Program.LoopFree (program : Program) : Prop := program.Every fun n => ¬ n.IsLoop

/-- No part of the function is a loop. -/
def Closure.LoopFree (c : Closure) : Prop := c.Every fun n => ¬ n.IsLoop

/-- Every part of the program is whole. -/
def Program.Intact (program : Program) : Prop := program.Every Node.Whole

/-- Every part of the function is whole. -/
def Closure.Intact (c : Closure) : Prop := c.Every Node.Whole

namespace Parser

/-! ### What is read is intact -/

/-- What a call reads is intact, as far as what it got is. -/
def Task.Intact : (k : Task) → k.Result → Prop
  | .expr .., e | .operand .., e => e.Every Node.Whole
  | .operators _ _ left _, e => left.Every Node.Whole → e.Every Node.Whole
  | .choice _ _ cond _, e => cond.Every Node.Whole → e.Every Node.Whole
  | .args .., es | .moreArgs .., es => ∀ es' ∈ es, Expr.EveryAll Node.Whole es'
  | .condition .., c => ∀ c' ∈ c, Expr.Every Node.Whole c'
  | .block .., b => b.Every Node.Whole
  | .body .., ss => Stmt.EveryAll Node.Whole ss
  | .stmt .., s => ∀ s' ∈ s, Stmt.Every Node.Whole s'

/-- Every call reads something intact. -/
def AllIntact (fuel : Nat) : Prop :=
  ∀ (k : Task) (s : Step k.Result), k.run fuel = some s → k.Intact s.value

section

variable {fuel loops : Nat} {power : Power} {t : Token} {ts : List Token}

/-- A missing expression lacks nothing itself, so `Node.Whole` has nothing to say about it. -/
theorem missing_intact : Expr.missing.Every Node.Whole := trivial

/-- An expression is what its operators make of its first operand, or it is missing. -/
theorem expr_intact (ih : AllIntact fuel) {s : Step Expr}
    (h : expr (fuel + 1) loops power ts = some s) : s.value.Every Node.Whole := by
  cases ts with
  | nil =>
    rw [expr, Option.some.injEq] at h
    subst h
    exact missing_intact
  | cons t ts =>
    rw [expr] at h
    split at h
    · simp only [Option.bind_eq_bind, Option.bind_eq_some_iff, Option.some.injEq] at h
      obtain ⟨left, hl, whole, hw, rfl⟩ := h
      have hleft := ih (.operand loops t ts) left hl
      exact ih (.operators loops power left.value left.rest) whole hw hleft
    · rw [Option.some.injEq] at h
      subst h
      exact missing_intact

/-- A choice is given only behind the block that it needs. -/
theorem operand_choice_intact (ih : AllIntact fuel) {s : Step Expr} (hk : t.kind = .kwIf)
    (h : operand (fuel + 1) loops t ts = some s) : s.value.Every Node.Whole := by
  simp only [operand, hk, Option.bind_eq_bind, Option.bind_eq_some_iff] at h
  obtain ⟨c, hcond, h⟩ := h
  split at h
  · rw [Option.some.injEq] at h
    subst h
    exact missing_intact
  · next cond hv =>
    simp only [Option.bind_eq_some_iff, Option.some.injEq] at h
    obtain ⟨w, hw, rfl⟩ := h
    have hc := ih (.condition loops ts) c hcond cond hv
    exact ih (.choice loops t cond c.rest) w hw hc

/-- So is a loop. -/
theorem operand_loop_intact (ih : AllIntact fuel) {s : Step Expr} (hk : t.kind = .kwWhile)
    (h : operand (fuel + 1) loops t ts = some s) : s.value.Every Node.Whole := by
  simp only [operand, hk, Option.bind_eq_bind, Option.bind_eq_some_iff] at h
  obtain ⟨c, hcond, h⟩ := h
  split at h
  · rw [Option.some.injEq] at h
    subst h
    exact missing_intact
  · next cond hv =>
    simp only [Option.bind_eq_some_iff] at h
    obtain ⟨b, hb, h⟩ := h
    have hc := ih (.condition loops ts) c hcond cond hv
    have hbody := ih (.block (loops + 1) c.rest) b hb
    -- A loop is only made with a body.
    split at h <;> rw [Option.some.injEq] at h <;> subst h
    · exact missing_intact
    · next hm => exact ⟨hm, hc, hbody⟩

/-- A function is given only with all its parameters, which are tokens that were read, and with its
    body. -/
theorem operand_fn_intact (ih : AllIntact fuel) {s : Step Expr} (hk : t.kind = .kwFunction)
    (h : operand (fuel + 1) loops t ts = some s) : s.value.Every Node.Whole := by
  simp only [operand, hk] at h
  split at h
  · rw [Option.some.injEq] at h
    subst h
    exact missing_intact
  · next ts' _ =>
    split at h
    · rw [Option.some.injEq] at h
      subst h
      exact missing_intact
    · simp only [Option.bind_eq_bind, Option.bind_eq_some_iff] at h
      obtain ⟨b, hb, h⟩ := h
      have hbody := ih (.block 0 (params ts').rest) b hb
      split at h <;> rw [Option.some.injEq] at h <;> subst h
      · exact missing_intact
      · next names _ _ hm =>
        -- Parameters are read as names, so none of them can be missing.
        have hparams : none ∉ names.map some := by simp
        exact ⟨⟨hparams, hm⟩, hbody⟩

/-- Every other operand lacks nothing that its kind asks for. -/
theorem operand_intact (ih : AllIntact fuel) {s : Step Expr}
    (h : operand (fuel + 1) loops t ts = some s) : s.value.Every Node.Whole := by
  cases hk : t.kind with
  | kwIf => exact operand_choice_intact ih hk h
  | kwWhile => exact operand_loop_intact ih hk h
  | kwFunction => exact operand_fn_intact ih hk h
  | bang | minus =>
    simp only [operand, hk, Option.bind_eq_bind, Option.bind_eq_some_iff, Option.some.injEq] at h
    obtain ⟨e, he, rfl⟩ := h
    exact ⟨trivial, ih (.expr loops Power.unary ts) e he⟩
  | lparen =>
    simp only [operand, hk, Option.bind_eq_bind, Option.bind_eq_some_iff] at h
    obtain ⟨e, he, h⟩ := h
    split at h <;> rw [Option.some.injEq] at h <;> subst h
    · exact ih (.expr loops Power.lowest ts) e he
    · exact missing_intact
  | int =>
    simp only [operand, hk, Option.some.injEq, intLiteral] at h
    split at h <;> subst h <;> trivial
  | _ =>
    simp only [operand, hk, Option.some.injEq] at h
    subst h
    trivial

/-- An operator may lack its right operand, and that is all it lacks. -/
theorem operators_intact (ih : AllIntact fuel) {left : Expr} {s : Step Expr}
    (h : operators (fuel + 1) loops power left ts = some s) (hl : left.Every Node.Whole) :
    s.value.Every Node.Whole := by
  cases ts with
  | nil =>
    rw [operators, Option.some.injEq] at h
    subst h
    exact hl
  | cons t ts =>
    rw [operators] at h
    split at h
    · split at h
      · simp only [Option.bind_eq_bind, Option.bind_eq_some_iff, Option.some.injEq] at h
        obtain ⟨as, ha, w, hw, rfl⟩ := h
        have hargs := ih (.args loops ts) as ha
        -- A call whose arguments cannot be read is left out.
        cases hv : as.value with
        | none =>
          rw [hv] at hw
          exact ih (.operators loops power .missing as.rest) w hw missing_intact
        | some es =>
          rw [hv] at hw
          have hcall : (Expr.call t left es).Every Node.Whole := ⟨trivial, hl, hargs es hv⟩
          exact ih (.operators loops power (.call t left es) as.rest) w hw hcall
      · simp only [Option.bind_eq_bind, Option.bind_eq_some_iff, Option.some.injEq] at h
        obtain ⟨r, hr, w, hw, rfl⟩ := h
        have hright := ih (.expr loops (Power.ofKind t.kind) ts) r hr
        have hbinary : (Expr.binary t left t.literal r.value).Every Node.Whole :=
          ⟨trivial, hl, hright⟩
        exact ih (.operators loops power (.binary t left t.literal r.value) r.rest) w hw hbinary
    · rw [Option.some.injEq] at h
      subst h
      exact hl

/-- An argument in front of others. -/
theorem cons_intact {e : Expr} {es : Option (List Expr)} (he : e.Every Node.Whole)
    (hes : ∀ es' ∈ es, Expr.EveryAll Node.Whole es') :
    ∀ es' ∈ es.map (e :: ·), Expr.EveryAll Node.Whole es' := by
  intro es' h
  obtain ⟨rest, hrest, rfl⟩ := Option.map_eq_some_iff.1 h
  exact ⟨he, hes rest hrest⟩

/-- Arguments are intact if they are given at all. -/
theorem args_intact (ih : AllIntact fuel) {s : Step (Option (List Expr))}
    (h : args (fuel + 1) loops ts = some s) :
    ∀ es ∈ s.value, Expr.EveryAll Node.Whole es := by
  rw [args] at h
  split at h
  · rw [Option.some.injEq] at h
    subst h
    rintro es ⟨⟩
    trivial
  · simp only [Option.bind_eq_bind, Option.bind_eq_some_iff, Option.some.injEq] at h
    obtain ⟨e, he, es, hes, rfl⟩ := h
    exact cons_intact (ih (.expr loops Power.lowest ts) e he) (ih (.moreArgs loops e.rest) es hes)

/-- So are the arguments behind a comma. -/
theorem moreArgs_intact (ih : AllIntact fuel) {s : Step (Option (List Expr))}
    (h : moreArgs (fuel + 1) loops ts = some s) :
    ∀ es ∈ s.value, Expr.EveryAll Node.Whole es := by
  cases ts with
  | nil =>
    rw [moreArgs, Option.some.injEq] at h
    subst h
    rintro es ⟨⟩
  | cons t ts =>
    rw [moreArgs] at h
    split at h
    · simp only [Option.bind_eq_bind, Option.bind_eq_some_iff, Option.some.injEq] at h
      obtain ⟨e, he, es, hes, rfl⟩ := h
      exact cons_intact (ih (.expr loops Power.lowest ts) e he)
        (ih (.moreArgs loops e.rest) es hes)
    · split at h <;> rw [Option.some.injEq] at h <;> subst h <;> rintro es ⟨⟩
      trivial

/-- So is a condition. -/
theorem condition_intact (ih : AllIntact fuel) {s : Step (Option Expr)}
    (h : condition (fuel + 1) loops ts = some s) : ∀ c ∈ s.value, Expr.Every Node.Whole c := by
  rw [condition] at h
  split at h
  · rw [Option.some.injEq] at h
    subst h
    rintro c ⟨⟩
  · next ts' _ =>
    simp only [Option.bind_eq_bind, Option.bind_eq_some_iff] at h
    obtain ⟨e, he, h⟩ := h
    split at h <;> rw [Option.some.injEq] at h <;> subst h <;> rintro c ⟨⟩
    exact ih (.expr loops Power.lowest ts') e he

/-- Where a block of a choice is missing the choice is given up as a whole. -/
theorem choice_intact (ih : AllIntact fuel) {cond : Expr} {s : Step Expr}
    (h : choice (fuel + 1) loops t cond ts = some s) (hc : cond.Every Node.Whole) :
    s.value.Every Node.Whole := by
  simp only [choice, Option.bind_eq_bind, Option.bind_eq_some_iff] at h
  obtain ⟨a, ha, h⟩ := h
  have hconsequence := ih (.block loops ts) a ha
  split at h
  · rw [Option.some.injEq] at h
    subst h
    exact missing_intact
  · next hm =>
    split at h
    · rw [Option.some.injEq] at h
      subst h
      exact ⟨hm, hc, hconsequence, trivial⟩
    · next ts' _ =>
      simp only [Option.bind_eq_some_iff] at h
      obtain ⟨b, hb, h⟩ := h
      have halternative := ih (.block loops ts') b hb
      split at h <;> rw [Option.some.injEq] at h <;> subst h
      · exact missing_intact
      · exact ⟨hm, hc, hconsequence, halternative⟩

/-- A block is the statements that were read for it. -/
theorem block_intact (ih : AllIntact fuel) {s : Step Block}
    (h : block (fuel + 1) loops ts = some s) : s.value.Every Node.Whole := by
  cases ts with
  | nil =>
    rw [block, Option.some.injEq] at h
    subst h
    trivial
  | cons t ts =>
    rw [block] at h
    split at h
    · simp only [Option.bind_eq_bind, Option.bind_eq_some_iff, Option.some.injEq] at h
      obtain ⟨ss, hs, rfl⟩ := h
      exact ih (.body loops ts) ss hs
    · rw [Option.some.injEq] at h
      subst h
      trivial

/-- A statement that could be read, or none, is intact. -/
theorem toList_intact {st : Option Stmt} (h : ∀ s ∈ st, Stmt.Every Node.Whole s) :
    Stmt.EveryAll Node.Whole st.toList := by
  cases st with
  | none => trivial
  | some s => exact ⟨h s rfl, trivial⟩

/-- What a call gives no statement for leaves no gap among the statements. -/
theorem body_intact (ih : AllIntact fuel) {s : Step (List Stmt)}
    (h : body (fuel + 1) loops ts = some s) : Stmt.EveryAll Node.Whole s.value := by
  cases ts with
  | nil =>
    rw [body, Option.some.injEq] at h
    subst h
    trivial
  | cons t ts =>
    rw [body] at h
    split at h
    · rw [Option.some.injEq] at h
      subst h
      trivial
    · simp only [Option.bind_eq_bind, Option.bind_eq_some_iff, Option.some.injEq] at h
      obtain ⟨st, hst, ss, hss, rfl⟩ := h
      have hfirst := toList_intact (ih (.stmt loops t ts) st hst)
      exact Stmt.everyAll_append hfirst (ih (.body loops st.rest) ss hss)

/-- A binding is given only behind its name. -/
theorem stmt_bind_intact (ih : AllIntact fuel) {s : Step (Option Stmt)} (hk : t.kind = .kwLet)
    (h : stmt (fuel + 1) loops t ts = some s) : ∀ st ∈ s.value, Stmt.Every Node.Whole st := by
  cases ts with
  | nil =>
    simp only [stmt, hk, Option.some.injEq] at h
    subst h
    rintro st ⟨⟩
  | cons x ts =>
    simp only [stmt, hk] at h
    split at h
    · split at h
      · rw [Option.some.injEq] at h
        subst h
        rintro st ⟨⟩
      · next ts' _ =>
        simp only [Option.bind_eq_bind, Option.bind_eq_some_iff, Option.some.injEq] at h
        obtain ⟨e, he, rfl⟩ := h
        -- Without a name the token is passed over, and there is no binding.
        have hname : some (Ident.ofToken x) ≠ none := by simp
        rintro st ⟨⟩
        exact ⟨hname, ih (.expr loops Power.lowest ts') e he⟩
    · rw [Option.some.injEq] at h
      subst h
      rintro st ⟨⟩

/-- A statement has whatever it cannot do without, or none is given. -/
theorem stmt_intact (ih : AllIntact fuel) {s : Step (Option Stmt)}
    (h : stmt (fuel + 1) loops t ts = some s) : ∀ st ∈ s.value, Stmt.Every Node.Whole st := by
  by_cases hl : t.kind = .kwLet
  · exact stmt_bind_intact ih hl h
  by_cases hr : t.kind = .kwReturn
  · rw [stmt_of_kwReturn hr] at h
    split at h
    · rw [Option.some.injEq] at h
      subst h
      rintro st ⟨⟩
      exact ⟨trivial, missing_intact⟩
    · simp only [Option.bind_eq_some_iff, Option.some.injEq] at h
      obtain ⟨e, he, rfl⟩ := h
      rintro st ⟨⟩
      exact ⟨trivial, ih (.expr loops Power.lowest ts) e he⟩
  by_cases hb : t.kind = .kwBreak
  · rw [stmt_of_kwBreak hb, Option.some.injEq] at h
    subst h
    rintro st ⟨⟩
    trivial
  · rw [stmt_of_expr hl hr hb] at h
    simp only [Option.bind_eq_some_iff] at h
    obtain ⟨e, he, h⟩ := h
    split at h <;> rw [Option.some.injEq] at h <;> subst h <;> rintro st ⟨⟩
    exact ⟨trivial, ih (.expr loops Power.lowest (t :: ts)) e he⟩

end

/-- **Whatever is read is intact**, with faults or without.  By induction on the bound.  Whatever a
    reading function gives up on is dropped as a whole, rather than left in the tree in part. -/
theorem run_intact (fuel : Nat) : AllIntact fuel := by
  induction fuel with
  | zero =>
    intro k s h
    exact absurd h (by simp [Task.run_zero])
  | succ fuel ih =>
    intro k s h
    cases k with
    | expr => exact expr_intact ih h
    | operand => exact operand_intact ih h
    | operators => exact operators_intact ih h
    | args => exact args_intact ih h
    | moreArgs => exact moreArgs_intact ih h
    | condition => exact condition_intact ih h
    | choice => exact choice_intact ih h
    | block => exact block_intact ih h
    | body => exact body_intact ih h
    | stmt => exact stmt_intact ih h

/-- A program has no gap among its statements either. -/
theorem program_intact {fuel : Nat} {ts : List Token} {s : Step (List Stmt)}
    (h : program fuel ts = some s) : Stmt.EveryAll Node.Whole s.value := by
  induction fuel generalizing ts s with
  | zero => exact absurd h (by simp [program])
  | succ fuel ih =>
    cases ts with
    | nil =>
      rw [program, Option.some.injEq] at h
      subst h
      trivial
    | cons t ts =>
      simp only [program, Option.bind_eq_bind, Option.bind_eq_some_iff, Option.some.injEq] at h
      obtain ⟨st, hst, ss, hss, rfl⟩ := h
      have hfirst := toList_intact (run_intact fuel (.stmt 0 t ts) st hst)
      exact Stmt.everyAll_append hfirst (ih hss)

end Parser

/-- **Every program that is read is intact**, whatever the faults of its source. -/
theorem intact_of_parse (source : String) : (parse source).program.Intact := by
  rw [parse, parseTokens]
  cases h : Parser.program (Parser.enough (tokenize source.toList).length)
      (tokenize source.toList) with
  | none => trivial
  | some s => exact Parser.program_intact h

end Incognita
