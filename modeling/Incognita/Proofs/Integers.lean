import Mathlib.Data.Nat.Digits.Defs
import Incognita.Proofs.Bounds
import Incognita.Proofs.Outlines.Trees
import Incognita.Proofs.Requests
import Incognita.Proofs.Respacing
import Incognita.Proofs.Spellings

namespace Incognita

/-!
# Session — integers read and written

Digits are cut into one token, whose number is taken if it fits into 64 bits with a sign, and is
reported otherwise.  A minus sign is a token of its own and an operator, so a negative integer is
read as the negative of its digits.  The smallest one has digits that do not fit, which makes it the
only integer that is not read as it is written.

* `Text.IsNumeral`, `Text.decimal` — digits and the number that they spell;
* `Text.int64OfDigits?_eq` — reading them gives that number, if it fits;
* `Token.lexes_int` — they are one token;
* `parse_numeral`, `parse_minus` — what they are read as, and what they are with a minus sign;
* `Session.integers_readBack` — what running them gives, and running an integer as it is shown.
-/

namespace Text

/-! ### Decimal numerals -/

/-- The text is made of digits, of which there is at least one. -/
structure IsNumeral (d : String) : Prop where
  ne_empty : d ≠ ""
  isDigit : ∀ c ∈ d.toList, isDigit c = true

/-- The number that digits spell: the last one counts once, and each one before it ten times as
    much as the one behind it. -/
def decimal (d : String) : Nat := Nat.ofDigits 10 (d.toList.reverse.map digitValue)

/-- The number that the scanner computes, `natOfDigits`, is the value of the digits. -/
theorem natOfDigits_eq (d : String) : natOfDigits d.toList = decimal d := by
  rw [decimal, Nat.ofDigits_eq_foldr, List.foldr_map, List.foldr_reverse, natOfDigits]
  refine congrArg (fun f => List.foldl f 0 d.toList) (funext fun n => funext fun c => ?_)
  exact Nat.add_comm _ _

/-- **Reading digits gives the number that they spell**, if it is below `2 ^ 63`.  Digits are added
    up from the left in `Nat`, so no sum can wrap around before it is compared with the limit. -/
theorem int64OfDigits?_eq (d : String) :
    int64OfDigits? d = if decimal d < 2 ^ 63 then some (Int64.ofNat (decimal d)) else none := by
  rw [int64OfDigits?, natOfDigits_eq]
  rfl

/-- The decimal digits of a number are a numeral. -/
theorem isNumeral_ofNat (n : Nat) : IsNumeral (ofNat n) where
  ne_empty := by
    intro h
    have hnil := congrArg String.toList h
    rw [ofNat, String.toList_ofList] at hnil
    exact Nat.toDigits_ne_nil hnil
  isDigit := fun _ => isDigit_of_mem_ofNat

/-- The value of the decimal digits of a number is that number. -/
theorem decimal_ofNat (n : Nat) : decimal (ofNat n) = n := by
  rw [← natOfDigits_eq, ofNat, String.toList_ofList]
  exact Nat.ofDigitChars_ten_toDigits

/-- An integer is written as its digits, behind a minus sign when it is negative. -/
theorem ofInt64_cases (n : Int64) :
    (∃ k : Nat, n.toInt = k ∧ ofInt64 n = ofNat k) ∨
      ∃ k : Nat, n.toInt = -k ∧ ofInt64 n = "-" ++ ofNat k := by
  rw [ofInt64]
  cases n.toInt with
  | ofNat k => exact .inl ⟨k, rfl, rfl⟩
  | negSucc k => exact .inr ⟨k + 1, rfl, rfl⟩

end Text

open Text

/-! ### Tokens and trees -/

section

variable {d : String}

/-- Digits are one token. -/
theorem Token.lexes_int (h : IsNumeral d) : Lexes ⟨.int, d⟩ := by
  obtain ⟨c, cs, hd⟩ : ∃ c cs, d.toList = c :: cs := by
    refine List.exists_cons_of_ne_nil fun hnil => h.ne_empty ?_
    exact String.toList_inj.1 hnil
  have hall : ∀ c' ∈ c :: cs, Text.isDigit c' = true := hd ▸ h.isDigit
  have hc : Text.isDigit c = true := hall c (by simp)
  have hcs : cs.all Text.isDigit = true := List.all_eq_true.2 fun c' hc' => hall c' (by simp [hc'])
  have hblank : isBlank c = false := by
    rw [← Bool.not_eq_true]
    intro hb
    exact absurd hc (by rw [not_isDigit_of_isBlank hb]; simp)
  refine lexes_of_scan (show Token.spelling ⟨.int, d⟩ = c :: cs from hd) hblank ?_
  rw [scan_of_word (.inl hc), if_pos hc, scanNumber, (takeWhile_of_all hcs).1,
    (takeWhile_of_all hcs).2, ofChars, ← hd, String.ofList_toList]

/-- A numeral behind a minus sign is a token by itself, and so is the sign. -/
theorem tokenize_minus (h : IsNumeral d) :
    tokenize ("-" ++ d).toList = [⟨.minus, "-"⟩, ⟨.int, d⟩] := by
  have hnext : Token.next? ("-" ++ d).toList = some (⟨.minus, "-"⟩, d.toList) := by
    rw [String.toList_append]
    rfl
  rw [tokenize_of_next hnext]
  exact congrArg _ (Token.lexes_int h)

/-- What is reported about digits. -/
def numeralFaults (d : String) : List Diagnostic :=
  if int64OfDigits? d = none then [.badInteger d] else []

/-- A numeral from `2 ^ 63` on has one fault, which names it. -/
theorem numeralFaults_of_le (h : 2 ^ 63 ≤ decimal d) : numeralFaults d = [.badInteger d] := by
  rw [numeralFaults, int64OfDigits?_eq, if_neg (Nat.not_lt.2 h)]
  rfl

/-- Nothing is reported about the digits of a number below `2 ^ 63`, and only about theirs. -/
theorem numeralFaults_eq_nil_iff : numeralFaults d = [] ↔ decimal d < 2 ^ 63 := by
  refine ⟨fun hnil => Nat.lt_of_not_le fun hle => ?_, fun hlt => ?_⟩
  · rw [numeralFaults_of_le hle] at hnil
    exact absurd hnil (by simp)
  · rw [numeralFaults, int64OfDigits?_eq, if_pos hlt]
    rfl

/-- An integer literal has the value of its digits, if they have one. -/
theorem intLiteral_eq (t : Token) (ts : List Token) :
    Parser.intLiteral t ts =
      ⟨.int t (int64OfDigits? t.literal), ts, numeralFaults t.literal⟩ := by
  rw [Parser.intLiteral, numeralFaults]
  cases int64OfDigits? t.literal <;> rfl

/-- A numeral is read as an expression statement, with a value if it has no fault. -/
theorem parse_numeral (h : IsNumeral d) :
    parse d = ⟨⟨[.expr ⟨.int, d⟩ (.int ⟨.int, d⟩ (int64OfDigits? d))]⟩, numeralFaults d⟩ := by
  have htokens : tokenize d.toList = [⟨.int, d⟩] := Token.lexes_int h
  -- a small bound is enough, and what is read under it is what is read
  have hread : Parser.program 5 [⟨.int, d⟩] =
      some ⟨[.expr ⟨.int, d⟩ (.int ⟨.int, d⟩ (int64OfDigits? d))], [], numeralFaults d⟩ := by
    simp [Parser.program, Parser.stmt, Parser.expr, Parser.operand, Parser.operators, intLiteral_eq,
      Parser.startsExpr, Step.after, Step.map, Parser.skipSemicolon]
  rw [parse, htokens, parseTokens_eq_of_program hread]

/-- Behind a minus sign the same literal is read, as the operand of the sign. -/
theorem parse_minus (h : IsNumeral d) :
    parse ("-" ++ d) = ⟨⟨[.expr ⟨.minus, "-"⟩
      (.unary ⟨.minus, "-"⟩ "-" (.int ⟨.int, d⟩ (int64OfDigits? d)))]⟩, numeralFaults d⟩ := by
  have hread : Parser.program 7 [⟨.minus, "-"⟩, ⟨.int, d⟩] =
      some ⟨[.expr ⟨.minus, "-"⟩
        (.unary ⟨.minus, "-"⟩ "-" (.int ⟨.int, d⟩ (int64OfDigits? d)))], [], numeralFaults d⟩ := by
    simp [Parser.program, Parser.stmt, Parser.expr, Parser.operand, Parser.operators, intLiteral_eq,
      Parser.startsExpr, Step.after, Step.map, Parser.skipSemicolon]
  rw [parse, tokenize_minus h, parseTokens_eq_of_program hread]

end

/-! ### Sessions -/

namespace Session

/-- A source that ends under some bound, and not one beyond all practice, gives its value. -/
theorem run_of_program {s : Session} {source : String} {fuel : Nat} {r : Result} {store : Store}
    (hclean : (parse source).diagnostics = []) (hfuel : fuel ≤ Eval.ample)
    (h : Eval.program fuel s.context (parse source).program.stmts none s.store =
      .done r store) :
    ∃ t, s.run source = some t ∧ t.result = .ok r := by
  have hend := Eval.program_mono hfuel h
  rw [run, runWithin_of_clean hclean, evaluateWithin_eq_some_iff.2 ⟨r, store, hend, rfl⟩]
  exact ⟨_, rfl, rfl⟩

/-- A source with one fault gives its wording. -/
theorem run_of_fault {s : Session} {source : String} {d : Diagnostic}
    (h : (parse source).diagnostics = [d]) :
    ∃ t, s.run source = some t ∧ t.result = .error d.message := by
  have hfaulty : (parse source).diagnostics ≠ [] := by simp [h]
  rw [run, runWithin_of_faulty hfaulty, h]
  exact ⟨_, rfl, rfl⟩

variable {s : Session} {d : String}

/-- A numeral below `2 ^ 63` is run without faults and gives its value. -/
theorem run_numeral (h : IsNumeral d) (hlt : decimal d < 2 ^ 63) :
    ∃ t, s.run d = some t ∧ t.result = .ok (some (.int (Int64.ofNat (decimal d)))) := by
  have hparse := parse_numeral h
  rw [numeralFaults_eq_nil_iff.2 hlt, int64OfDigits?_eq, if_pos hlt] at hparse
  have hend : Eval.program 4 s.context (parse d).program.stmts none s.store =
      .done (some (.int (Int64.ofNat (decimal d)))) s.store := by
    rw [hparse]
    rfl
  exact run_of_program (by rw [hparse]) (by decide) hend

/-- Behind a minus sign the same numeral gives the negative of its value. -/
theorem run_minus (h : IsNumeral d) (hlt : decimal d < 2 ^ 63) :
    ∃ t, s.run ("-" ++ d) = some t ∧ t.result = .ok (some (.int (-Int64.ofNat (decimal d)))) := by
  have hparse := parse_minus h
  rw [numeralFaults_eq_nil_iff.2 hlt, int64OfDigits?_eq, if_pos hlt] at hparse
  have hend : Eval.program 5 s.context (parse ("-" ++ d)).program.stmts none s.store =
      .done (some (.int (-Int64.ofNat (decimal d)))) s.store := by
    rw [hparse]
    rfl
  exact run_of_program (by rw [hparse]) (by decide) hend

/-- Running an integer as it is shown gives it back without a fault, unless it is the smallest
    one. -/
theorem run_shown_iff (s : Session) (n : Int64) :
    ((parse (ofInt64 n)).diagnostics = [] ∧
      ∃ t, s.run (ofInt64 n) = some t ∧ t.result = .ok (some (.int n))) ↔ n.toInt ≠ -2 ^ 63 := by
  have hlow := n.le_toInt
  have hhigh := n.toInt_lt
  -- An integer is shown as its digits, or as those of its negative behind a minus sign.
  rcases ofInt64_cases n with ⟨k, hk, htext⟩ | ⟨k, hk, htext⟩
  · have hlt : decimal (ofNat k) < 2 ^ 63 := by rw [decimal_ofNat]; omega
    have hn : Int64.ofNat (decimal (ofNat k)) = n := by
      rw [decimal_ofNat, ← Int64.ofInt_eq_ofNat, ← hk, Int64.ofInt_toInt]
    rw [htext, parse_numeral (isNumeral_ofNat k)]
    exact iff_of_true ⟨numeralFaults_eq_nil_iff.2 hlt, hn ▸ run_numeral (isNumeral_ofNat k) hlt⟩
      (by omega)
  · -- the digits have no sign, so those of the smallest integer are beyond the limit
    have hn : -Int64.ofNat (decimal (ofNat k)) = n := by
      rw [decimal_ofNat, ← Int64.ofInt_eq_ofNat, ← Int64.ofInt_neg, ← hk, Int64.ofInt_toInt]
    have hlt : decimal (ofNat k) < 2 ^ 63 ↔ n.toInt ≠ -2 ^ 63 := by rw [decimal_ofNat]; omega
    rw [htext, parse_minus (isNumeral_ofNat k), ← hlt, ← numeralFaults_eq_nil_iff]
    refine ⟨And.left, fun hnil => ⟨hnil, hn ▸ run_minus (isNumeral_ofNat k) ?_⟩⟩
    exact numeralFaults_eq_nil_iff.1 hnil

/-- **Integers are read and written alike, up to the limits.**  In every session, running digits
    gives the number that they spell if it is below `2 ^ 63`, and the one fault of any others is
    that they cannot be read.  Running an integer as it is shown gives it back without a fault,
    unless it is the smallest one. -/
theorem integers_readBack (s : Session) :
    (∀ d, IsNumeral d →
      ((parse d).diagnostics = [] ↔ decimal d < 2 ^ 63) ∧
      (decimal d < 2 ^ 63 → ∃ t, s.run d = some t ∧
        ∃ n : Int64, t.result = .ok (some (.int n)) ∧ n.toInt = decimal d) ∧
      (2 ^ 63 ≤ decimal d →
        (parse d).diagnostics.map Diagnostic.message =
          ["no se pudo analizar como entero: " ++ d] ∧
        ∃ t, s.run d = some t ∧ t.result = .error ("no se pudo analizar como entero: " ++ d))) ∧
    ∀ n : Int64, ∃ text, (Value.int n).inspect = some text ∧
      (((parse text).diagnostics = [] ∧
        ∃ t, s.run text = some t ∧ t.result = .ok (some (.int n))) ↔ n.toInt ≠ -2 ^ 63) := by
  refine ⟨fun d h => ?_, fun n => ⟨_, rfl, run_shown_iff s n⟩⟩
  have hfaults : (parse d).diagnostics = numeralFaults d := by rw [parse_numeral h]
  refine ⟨hfaults ▸ numeralFaults_eq_nil_iff, fun hlt => ?_, fun hle => ?_⟩
  · obtain ⟨t, ht, hresult⟩ := run_numeral h hlt
    exact ⟨t, ht, _, hresult, Int64.toInt_ofNat_of_lt hlt⟩
  · rw [numeralFaults_of_le hle] at hfaults
    rw [hfaults]
    exact ⟨rfl, run_of_fault hfaults⟩

/-- The largest integer is read from its digits, behind any zeros, the digits of the next number
    are a fault, and so the smallest integer is not read back. -/
theorem integers_readBack_limits :
    let s := ofSettings CommandLine.ansi {}
    (IsNumeral "009223372036854775807" ∧ ∃ t, s.run "009223372036854775807" = some t ∧
      ∃ n : Int64, t.result = .ok (some (.int n)) ∧ n.toInt = 2 ^ 63 - 1) ∧
    (IsNumeral "9223372036854775808" ∧ ∃ t, s.run "9223372036854775808" = some t ∧
      t.result = .error "no se pudo analizar como entero: 9223372036854775808") ∧
    ¬ ((parse "-9223372036854775808").diagnostics = [] ∧
      ∃ t, s.run "-9223372036854775808" = some t ∧
        t.result = .ok (some (.int Int64.minValue))) := by
  intro s
  have hlargest : IsNumeral "009223372036854775807" := ⟨by decide, List.all_eq_true.1 (by decide)⟩
  have hnext : IsNumeral "9223372036854775808" := ⟨by decide, List.all_eq_true.1 (by decide)⟩
  -- The largest integer, the number behind it, and the smallest integer as it is shown.
  refine ⟨⟨hlargest, ?_⟩, ⟨hnext, ?_⟩, fun h => ?_⟩
  · exact ((integers_readBack s).1 _ hlargest).2.1 (by decide)
  · exact (((integers_readBack s).1 _ hnext).2.2 (by decide)).2
  · obtain ⟨text, htext, hiff⟩ := (integers_readBack s).2 Int64.minValue
    obtain rfl : ofInt64 Int64.minValue = text := Option.some.inj htext
    exact hiff.1 h rfl

end Session

end Incognita
