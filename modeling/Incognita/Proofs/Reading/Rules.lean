import Incognita.Proofs.Tasks

namespace Incognita

/-!
# Parser — reading by rules

What the reading functions do on tokens that they take without a fault, as rules.  A break
outside a loop counts as no fault here; the rules count such breaks instead.

* `Ident.given` — the parameters of a function that are not missing;
* `Parser.leaf?` — the expression that a token is by itself;
* `Parser.Reads` — the call `k` reads a value and leaves `rest`, meeting `n` stray breaks.
  There is one rule for each way in which a reading function can succeed;
* `Parser.Reads.present` — nothing that is read is missing;
* `Parser.Reads.stops` — an expression ends in front of a token that does not bind tighter;
* `Parser.ReadsAll` — the same for the tokens of a whole source;
* `Parser.ReadsParams` — rules for the parameters of a function.

That the functions follow the rules is `Reading/Sound.lean`, and that they give what the rules
say is `Reading/Exact.lean`.  So a fact about everything that is read without faults is an
induction on `Reads`, where neither bounds nor faults occur any more.
-/

namespace Ident

variable {names : List Ident}

/-- The parameters that are not missing. -/
def given (ps : List (Option Ident)) : List Ident := ps.filterMap id

@[simp] theorem given_map_some : given (names.map some) = names := by simp [given]

theorem mem_given {x : Ident} {ps : List (Option Ident)} : x ∈ given ps ↔ some x ∈ ps := by
  simp [given]

/-- What holds of all parameters that are there. -/
theorem forall_map_some {P : Ident → Prop} :
    (∀ x, some x ∈ names.map some → P x) ↔ ∀ x ∈ names, P x := by
  simp

end Ident

namespace Parser

/-! ### The rules -/

/-- The expression that a token is by itself, if it is one. -/
def leaf? (t : Token) : Option Expr :=
  match t.kind with
  | .ident => some (.ident (.ofToken t))
  | .int => (Text.int64OfDigits? t.literal).map fun n => .int t (some n)
  | .string => some (.str t t.literal)
  | .kwTrue => some (.bool t true)
  | .kwFalse => some (.bool t false)
  | _ => none

/-- The next token does not bind tighter than the power. -/
def Stops (power : Power) (ts : List Token) : Prop := ∀ t ∈ ts.head?, Power.ofKind t.kind ≤ power

/-- The call `k` reads a value, leaves tokens, and meets so many stray breaks. -/
inductive Reads : (k : Task) → k.Result → List Token → Nat → Prop
  /-- An operand, and the operators behind it. -/
  | expr {loops power t ts left mid e rest m n} (hs : startsExpr t.kind = true)
      (hl : Reads (.operand loops t ts) left mid m)
      (hw : Reads (.operators loops power left mid) e rest n) :
      Reads (.expr loops power (t :: ts)) e rest (m + n)
  /-- A token that is an expression by itself. -/
  | leaf {loops t ts e} (h : leaf? t = some e) : Reads (.operand loops t ts) e ts 0
  /-- A sign in front of an operand, which binds tighter than any operator between two. -/
  | unary {loops t ts e rest n} (hk : t.kind = .bang ∨ t.kind = .minus)
      (he : Reads (.expr loops Power.unary ts) e rest n) :
      Reads (.operand loops t ts) (.unary t t.literal e) rest n
  /-- Parentheses leave nothing in the tree. -/
  | group {loops t u ts e rest n} (hk : t.kind = .lparen) (hu : u.kind = .rparen)
      (he : Reads (.expr loops Power.lowest ts) e (u :: rest) n) :
      Reads (.operand loops t ts) e rest n
  /-- A choice, behind its condition. -/
  | choose {loops t ts c mid e rest m n} (hk : t.kind = .kwIf)
      (hc : Reads (.condition loops ts) (some c) mid m)
      (hw : Reads (.choice loops t c mid) e rest n) :
      Reads (.operand loops t ts) e rest (m + n)
  /-- In the body one more loop is open. -/
  | loop {loops t ts c mid b rest m n} (hk : t.kind = .kwWhile)
      (hc : Reads (.condition loops ts) (some c) mid m)
      (hb : Reads (.block (loops + 1) mid) b rest n) :
      Reads (.operand loops t ts) (.loop t c b) rest (m + n)
  /-- No loop around the function is one that its body may break. -/
  | fn {loops t u ts names mid b rest n} (hk : t.kind = .kwFunction) (hu : u.kind = .lparen)
      (hp : params ts = ⟨some names, mid, []⟩) (hb : Reads (.block 0 mid) b rest n) :
      Reads (.operand loops t (u :: ts)) (.fn t (names.map some) b) rest n
  /-- What comes next binds no tighter than the expression that is being read. -/
  | stop {loops power left ts} (h : Stops power ts) :
      Reads (.operators loops power left ts) left ts 0
  /-- A parenthesis behind an operand opens the arguments of a call. -/
  | call {loops power left t ts es mid e rest m n} (hp : power < Power.ofKind t.kind)
      (hk : t.kind = .lparen) (ha : Reads (.args loops ts) (some es) mid m)
      (hw : Reads (.operators loops power (.call t left es) mid) e rest n) :
      Reads (.operators loops power left (t :: ts)) e rest (m + n)
  /-- The right operand is read with the power of the operator, so equal ones group to the left. -/
  | binary {loops power left t ts r mid e rest m n} (hp : power < Power.ofKind t.kind)
      (hk : t.kind ≠ .lparen) (hr : Reads (.expr loops (Power.ofKind t.kind) ts) r mid m)
      (hw : Reads (.operators loops power (.binary t left t.literal r) mid) e rest n) :
      Reads (.operators loops power left (t :: ts)) e rest (m + n)
  /-- A call without arguments. -/
  | noArgs {loops t ts} (hk : t.kind = .rparen) : Reads (.args loops (t :: ts)) (some []) ts 0
  /-- The first argument, and those behind it. -/
  | someArgs {loops ts e mid es rest m n} (he : Reads (.expr loops Power.lowest ts) e mid m)
      (hes : Reads (.moreArgs loops mid) (some es) rest n) :
      Reads (.args loops ts) (some (e :: es)) rest (m + n)
  | lastArg {loops t ts} (hk : t.kind = .rparen) :
      Reads (.moreArgs loops (t :: ts)) (some []) ts 0
  | nextArg {loops t ts e mid es rest m n} (hk : t.kind = .comma)
      (he : Reads (.expr loops Power.lowest ts) e mid m)
      (hes : Reads (.moreArgs loops mid) (some es) rest n) :
      Reads (.moreArgs loops (t :: ts)) (some (e :: es)) rest (m + n)
  /-- An expression in parentheses. -/
  | condition {loops t u ts e rest n} (hk : t.kind = .lparen) (hu : u.kind = .rparen)
      (he : Reads (.expr loops Power.lowest ts) e (u :: rest) n) :
      Reads (.condition loops (t :: ts)) (some e) rest n
  /-- Without `tonces` behind it a choice has no alternative. -/
  | oneWay {loops t c ts a rest n} (ha : Reads (.block loops ts) a rest n)
      (hr : peek rest ≠ .kwElse) :
      Reads (.choice loops t c ts) (.choice t c a .missing) rest n
  /-- The alternative behind `tonces`. -/
  | twoWays {loops t c u ts a mid b rest m n} (hu : u.kind = .kwElse)
      (ha : Reads (.block loops ts) a (u :: mid) m) (hb : Reads (.block loops mid) b rest n) :
      Reads (.choice loops t c ts) (.choice t c a b) rest (m + n)
  /-- Statements in braces. -/
  | block {loops t ts ss rest n} (hk : t.kind = .lbrace) (hb : Reads (.body loops ts) ss rest n) :
      Reads (.block loops (t :: ts)) (.mk t ss) rest n
  | close {loops t ts} (hk : t.kind = .rbrace) : Reads (.body loops (t :: ts)) [] ts 0
  | next {loops t ts s mid ss rest m n} (hs : Reads (.stmt loops t ts) (some s) mid m)
      (hss : Reads (.body loops mid) ss rest n) :
      Reads (.body loops (t :: ts)) (s :: ss) rest (m + n)
  /-- A name, and its value. -/
  | bind {loops t x a ts e rest n} (hk : t.kind = .kwLet) (hx : x.kind = .ident)
      (ha : a.kind = .assign) (he : Reads (.expr loops Power.lowest ts) e rest n) :
      Reads (.stmt loops t (x :: a :: ts)) (some (.bind t (some (.ofToken x)) e))
        (skipSemicolon rest) n
  /-- Nothing is read for the value in front of what ends a return. -/
  | bareReturn {loops t ts} (hk : t.kind = .kwReturn) (hr : endsReturn (peek ts) = true) :
      Reads (.stmt loops t ts) (some (.ret t .missing)) (skipSemicolon ts) 0
  /-- A return with its value. -/
  | valueReturn {loops t ts e rest n} (hk : t.kind = .kwReturn)
      (he : Reads (.expr loops Power.lowest ts) e rest n) :
      Reads (.stmt loops t ts) (some (.ret t e)) (skipSemicolon rest) n
  /-- The break is read in any case, and counted outside of loops. -/
  | brk {loops t ts} (hk : t.kind = .kwBreak) :
      Reads (.stmt loops t ts) (some (.brk t)) (skipSemicolon ts) (if loops = 0 then 1 else 0)
  /-- The statement knows the token that it starts with. -/
  | exprStmt {loops t ts e rest n} (he : Reads (.expr loops Power.lowest (t :: ts)) e rest n) :
      Reads (.stmt loops t ts) (some (.expr t e)) (skipSemicolon rest) n

namespace Reads

/-! ### What is read is there -/

/-- What a call reads is there, an expression that the call got from outside apart. -/
def Present : (k : Task) → k.Result → Prop
  | .expr .., e | .operand .., e | .choice .., e => e ≠ .missing
  | .operators _ _ left _, e => left ≠ .missing → e ≠ .missing
  | .args .., es | .moreArgs .., es => es ≠ none
  | .condition .., c => c ≠ none
  | .block .., b => b ≠ .missing
  | .body .., _ => True
  | .stmt .., s => s ≠ none

/-- A token that is an expression by itself is not missing. -/
theorem leaf_ne_missing {t : Token} {e : Expr} (h : leaf? t = some e) : e ≠ .missing := by
  rintro rfl
  rw [leaf?] at h
  split at h <;> simp at h

/-- What a call reads by the rules is there: every rule makes something. -/
theorem present {k : Task} {v : k.Result} {rest : List Token} {n : Nat} (h : Reads k v rest n) :
    Present k v := by
  -- Operators are applied to what is there, so only the first operand has to be looked at.
  induction h with
  | expr _ _ _ ihl ihw => exact ihw ihl
  | leaf h => exact leaf_ne_missing h
  | group _ _ _ ih => exact ih
  | choose _ _ _ _ ihw => exact ihw
  | stop _ => exact id
  | call _ _ _ _ _ ihw => exact fun _ => ihw (by simp)
  | binary _ _ _ _ _ ihw => exact fun _ => ihw (by simp)
  | close | next => trivial
  | _ => simp [Present]

/-! ### How a reading starts -/

/-- A token that is an expression by itself starts one. -/
theorem startsExpr_of_leaf {t : Token} {e : Expr} (h : leaf? t = some e) :
    startsExpr t.kind = true := by
  rw [leaf?] at h
  split at h <;> simp_all [startsExpr]

/-- An expression starts with a token that can start one. -/
theorem startsExpr_head {loops : Nat} {power : Power} {ts : List Token} {e : Expr}
    {rest : List Token} {n : Nat} (h : Reads (.expr loops power ts) e rest n) :
    ∃ t ts', ts = t :: ts' ∧ startsExpr t.kind = true := by
  cases h with
  | expr hs _ _ => exact ⟨_, _, rfl, hs⟩

/-! ### Where an expression ends -/

/-- An expression ends in front of a token that does not bind tighter.  There is nothing to say
    of other calls. -/
def Stopped : Task → List Token → Prop
  | .expr _ power _, rest | .operators _ power _ _, rest => Stops power rest
  | _, _ => True

/-- Behind an expression there is a token that stops it at its power, or none. -/
theorem stops {k : Task} {v : k.Result} {rest : List Token} {n : Nat} (h : Reads k v rest n) :
    Stopped k rest := by
  induction h with
  | expr _ _ _ _ ihw => exact ihw
  | stop h => exact h
  | call _ _ _ _ _ ihw | binary _ _ _ _ _ ihw => exact ihw
  | _ => trivial

end Reads

/-! ### Whole sources -/

/-- The tokens of a source read as statements, with so many stray breaks. -/
inductive ReadsAll : List Token → List Stmt → Nat → Prop
  | nil : ReadsAll [] [] 0
  /-- The statements of a program stand in no loop. -/
  | cons {t ts s rest ss m n} (hs : Reads (.stmt 0 t ts) (some s) rest m)
      (hss : ReadsAll rest ss n) : ReadsAll (t :: ts) (s :: ss) (m + n)

/-! ### Parameters -/

/-- The tokens behind a parameter read as further ones, up to the closing parenthesis. -/
inductive ReadsNames : List Token → List Ident → List Token → Prop
  | close {t ts} (hk : t.kind = .rparen) : ReadsNames (t :: ts) [] ts
  | next {t u ts names rest} (hk : t.kind = .comma) (hu : u.kind = .ident)
      (h : ReadsNames ts names rest) : ReadsNames (t :: u :: ts) (.ofToken u :: names) rest

/-- The tokens behind the opening parenthesis read as parameters. -/
inductive ReadsParams : List Token → List Ident → List Token → Prop
  | close {t ts} (hk : t.kind = .rparen) : ReadsParams (t :: ts) [] ts
  | first {t ts names rest} (hk : t.kind = .ident) (h : ReadsNames ts names rest) :
      ReadsParams (t :: ts) (.ofToken t :: names) rest

section

variable {ts mid : List Token} {names : List Ident}

/-- The names that the reader takes behind a parenthesis are read by the rules for names. -/
theorem readsNames_of_moreParams (h : (moreParams ts).value = some names) :
    ReadsNames ts names (moreParams ts).rest := by
  fun_induction moreParams ts generalizing names with
  | case5 t u ts ht hu ih =>
    simp only [Step.map, Option.map_eq_some_iff] at h
    obtain ⟨names', h', rfl⟩ := h
    exact .next ht hu (ih h')
  | case3 t _ ht | case7 t u ts _ ht =>
    obtain rfl : [] = names := Option.some.inj h
    exact .close ht
  | case1 | case2 | case4 | case6 | case8 => simp at h

/-- So are all parameters of a function. -/
theorem readsParams_of_params (h : params ts = ⟨some names, mid, []⟩) :
    ReadsParams ts names mid := by
  cases ts with
  | nil => simp [params] at h
  | cons t ts =>
    rw [params] at h
    split at h
    · next ht =>
      obtain ⟨rfl, rfl⟩ : [] = names ∧ ts = mid := by simpa using h
      exact .close ht
    · split at h
      · next ht =>
        obtain ⟨names', hv, rfl⟩ := Option.map_eq_some_iff.1 (congrArg Step.value h)
        -- The first name is a parameter, and the others are read behind it.
        obtain rfl : (moreParams ts).rest = mid := congrArg Step.rest h
        exact .first ht (readsNames_of_moreParams hv)
      · simp at h

/-- The rules for names tell what the reader takes. -/
theorem ReadsNames.moreParams (h : ReadsNames ts names mid) :
    Parser.moreParams ts = ⟨some names, mid, []⟩ := by
  induction h with
  | close hk => exact moreParams_of_rparen hk
  | next hk hu _ ih =>
    rw [moreParams_of_comma hk hu, params_of_ident hu, ih]
    rfl

/-- The rules for parameters do, too. -/
theorem ReadsParams.params (h : ReadsParams ts names mid) :
    Parser.params ts = ⟨some names, mid, []⟩ := by
  cases h with
  | close hk => rw [Parser.params, if_pos hk]
  | first hk h =>
    rw [params_of_ident hk, h.moreParams]
    rfl

end

end Parser

end Incognita
