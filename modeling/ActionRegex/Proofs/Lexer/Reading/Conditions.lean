import ActionRegex.Proofs.Lexer.Reader
import ActionRegex.Proofs.Pattern.RepetitionTexts
import Mathlib.Data.FinEnum

/-!
# Written conditions are read back

What the smaller parts of a written lexer are read as: lines one after the other
(`readMany_flatMap`), numbers, literals, and the conditions of `if` statements
(`readCondition_condition`). Each part is read whatever follows it.
-/

namespace ActionRegex.Lexer

open Bytes (ofString ofString_append)

/-! ## Parts of a text -/

theorem dropPrefix?_append (l rest : Bytes) : (l ++ rest).dropPrefix? l = some rest :=
  List.dropPrefix?_eq_some_iff.mpr ⟨l, rfl, beq_self_eq_true l⟩

@[simp] theorem expect_nil (text : Bytes) : expect [] text = some text := rfl

@[simp] theorem expect_cons (part : String) (parts : List String) (rest : Bytes) :
    expect (part :: parts) (ofString part ++ rest) = expect parts rest := by
  rw [expect, dropPrefix?_append, Option.bind_some]

@[simp] theorem expect_last (part : String) : expect [part] (ofString part) = some [] := by
  rw [← List.append_nil (ofString part), expect_cons, expect_nil]

theorem expect_append (l r : List String) (text : Bytes) :
    expect (l ++ r) text = (expect l text).bind (expect r) := by
  induction l generalizing text with
  | nil => rfl
  | cons part parts ih =>
    rw [List.cons_append, expect, expect, Option.bind_assoc]
    exact Option.bind_congr fun _ _ => ih _

/-- Parts that are written are read. -/
theorem expect_flatMap (parts : List String) (rest : Bytes) :
    expect parts (parts.flatMap ofString ++ rest) = some rest := by
  induction parts with
  | nil => rfl
  | cons part parts ih => rw [List.flatMap_cons, List.append_assoc, expect_cons, ih]

/-- **Things written one after the other are read one after the other.** -/
theorem readMany_flatMap {α β : Type} {read : Bytes → Option (β × Bytes)} {write : α → Bytes}
    {value : α → β} {last : Bytes} (as : List α)
    (hread : ∀ a ∈ as, ∀ rest, read (write a ++ rest) = some (value a, rest))
    (hwrite : ∀ a ∈ as, write a ≠ []) (hlast : read last = none) :
    readMany read (as.flatMap write ++ last) = (as.map value, last) := by
  induction as with
  | nil => rw [List.flatMap_nil, List.nil_append, readMany, hlast, List.map_nil]
  | cons a as ih =>
    have hpos : 0 < (write a).length := List.length_pos_iff.mpr (hwrite a List.mem_cons_self)
    have hlt : (as.flatMap write ++ last).length <
        (write a ++ (as.flatMap write ++ last)).length := by
      have hlength := @List.length_append _ (write a) (as.flatMap write ++ last)
      omega
    rw [List.flatMap_cons, List.append_assoc, readMany, hread a List.mem_cons_self]
    simp only
    rw [if_pos hlt, ih (fun a h => hread a (List.mem_cons_of_mem _ h))
        (fun a h => hwrite a (List.mem_cons_of_mem _ h)), List.map_cons]

/-! ## Lines -/

@[simp] theorem ofString_unlines_nil : ofString (unlines []) = [] := rfl

@[simp] theorem ofString_unlines_cons (line : String) (lines : List String) :
    ofString (unlines (line :: lines)) =
      ofString line ++ (ofString "\n" ++ ofString (unlines lines)) := by
  rw [unlines, List.map_cons, String.join_cons, ofString_append, ofString_append,
    List.append_assoc]
  rfl

@[simp] theorem ofString_unlines_append (l r : List String) :
    ofString (unlines (l ++ r)) = ofString (unlines l) ++ ofString (unlines r) := by
  induction l with
  | nil => rfl
  | cons line lines ih =>
    rw [List.cons_append, ofString_unlines_cons, ih, ofString_unlines_cons, List.append_assoc,
      List.append_assoc]

theorem ofString_unlines_flatMap {α : Type} (as : List α) (lines : α → List String) :
    ofString (unlines (as.flatMap lines)) = as.flatMap fun a => ofString (unlines (lines a)) := by
  induction as with
  | nil => rfl
  | cons a as ih => rw [List.flatMap_cons, ofString_unlines_append, ih, List.flatMap_cons]

theorem ofString_unlines_map {α : Type} (as : List α) (line : α → String) :
    ofString (unlines (as.map line)) = as.flatMap fun a => ofString (line a) ++ ofString "\n" := by
  rw [← List.flatMap_singleton' as, List.map_flatMap, ofString_unlines_flatMap,
    List.flatMap_singleton']
  simp

theorem ofString_unlines_ne_nil {lines : List String} (h : lines ≠ []) :
    ofString (unlines lines) ≠ [] := by
  cases lines with
  | nil => exact absurd rfl h
  | cons line lines =>
    rw [ofString_unlines_cons]
    exact List.append_ne_nil_of_right_ne_nil _ (List.cons_ne_nil _ _)

/-! ## Numbers -/

/-- A number in decimal digits. -/
def numeral (n : Nat) : Bytes := ofString (toString n)

theorem numeral_of_lt : ∀ n < 10, numeral n = [UInt8.ofNat (0x30 + n)] := by decide

theorem numeral_of_le {n : Nat} (h : 10 ≤ n) :
    numeral n = numeral (n / 10) ++ numeral (n % 10) := by
  have hdigits : Nat.toDigits 10 n = Nat.toDigits 10 (n / 10) ++ Nat.toDigits 10 (n % 10) := by
    rw [Nat.toDigits_of_base_le (by decide) h,
      Nat.toDigits_of_lt_base (Nat.mod_lt n (by decide) : n % 10 < 10)]
  have hstring : toString n = toString (n / 10) ++ toString (n % 10) := by
    rw [Nat.toString_eq_repr, Nat.toString_eq_repr, Nat.toString_eq_repr,
      Nat.repr_eq_ofList_toDigits, Nat.repr_eq_ofList_toDigits, Nat.repr_eq_ofList_toDigits,
      hdigits, String.ofList_append]
  rw [numeral, hstring, ofString_append]
  rfl

theorem decimal_concat (digits : Bytes) (d : UInt8) :
    Ascii.decimal (digits ++ [d]) = 10 * Ascii.decimal digits + (d.toNat - 0x30) := by
  rw [Ascii.decimal, List.foldl_append]
  rfl

/-- Digits of a number, without a zero in front. -/
structure IsNumeral (n : Nat) (digits : Bytes) : Prop where
  isDigit : ∀ d ∈ digits, Ascii.isDigit d = true
  ne_nil : digits ≠ []
  value : Ascii.decimal digits = n
  zero : digits.head? = some 0x30 → n = 0

/-- A digit is a number. -/
theorem digit_of_lt : ∀ n < 10, Ascii.isDigit (UInt8.ofNat (0x30 + n)) = true ∧
    (UInt8.ofNat (0x30 + n)).toNat - 0x30 = n ∧ (UInt8.ofNat (0x30 + n) = 0x30 → n = 0) := by
  decide

theorem isNumeral_of_lt {n : Nat} (h : n < 10) : IsNumeral n (numeral n) := by
  obtain ⟨hdigit, hvalue, hzero⟩ := digit_of_lt n h
  rw [numeral_of_lt n h]
  exact ⟨List.forall_mem_singleton.mpr hdigit, List.cons_ne_nil _ _,
    (decimal_concat [] _).trans (by rw [hvalue]; exact Nat.zero_add n),
    fun hhead => hzero (Option.some.inj hhead)⟩

theorem isNumeral_numeral (n : Nat) : IsNumeral n (numeral n) := by
  induction n using Nat.strong_induction_on with
  | h n ih =>
    by_cases hlt : n < 10
    · exact isNumeral_of_lt hlt
    · have hlast : n % 10 < 10 := Nat.mod_lt n (by decide)
      have hfront := ih (n / 10) (by omega)
      have hdigit := isNumeral_of_lt hlast
      rw [numeral_of_le (by omega)]
      refine ⟨List.forall_mem_append.mpr ⟨hfront.isDigit, hdigit.isDigit⟩,
        List.append_ne_nil_of_left_ne_nil hfront.ne_nil _, ?_, ?_⟩
      · rw [numeral_of_lt _ hlast, decimal_concat, hfront.value, (digit_of_lt _ hlast).2.1]
        omega
      · intro hzero
        rw [List.head?_append_of_ne_nil _ hfront.ne_nil] at hzero
        have hten : n / 10 = 0 := hfront.zero hzero
        omega

theorem numeral_injective : Function.Injective numeral := by
  intro n m h
  rw [← (isNumeral_numeral n).value, h, (isNumeral_numeral m).value]

variable {rest : Bytes}

/-- What follows digits is not one more. -/
def EndsDigits (rest : Bytes) : Prop := ∀ b ∈ rest.head?, Ascii.isDigit b = false

theorem readDigits_numeral (n : Nat) (hrest : EndsDigits rest) :
    readDigits (numeral n ++ rest) = some (numeral n, rest) := by
  have hn := isNumeral_numeral n
  obtain ⟨htake, hdrop⟩ := Pattern.takeWhile_digits hn.isDigit hrest
  rw [readDigits, htake, hdrop, if_neg (by simpa using hn.ne_nil)]

theorem readNumber_numeral (n : Nat) (hrest : EndsDigits rest) :
    readNumber (numeral n ++ rest) = some (n, rest) := by
  have hoctal : ¬ ((numeral n).head? = some 0x30 ∧ (numeral n).length ≠ 1) := by
    rintro ⟨hzero, hlength⟩
    obtain rfl := (isNumeral_numeral n).zero hzero
    exact hlength rfl
  rw [readNumber, readDigits_numeral n hrest]
  simp only [Option.bind_eq_bind, Option.bind_some]
  rw [if_neg hoctal, (isNumeral_numeral n).value]

/-! ## Literals -/

/-- How bytes are written. -/
theorem literal_shape : ∀ b : UInt8,
    (b = Ascii.quote ∨ b = Ascii.backslash) ∧ ofString (literal b) = [0x27, 0x5c, b, 0x27] ∨
    ¬ (b = Ascii.quote ∨ b = Ascii.backslash) ∧ (b = Ascii.space ∨ Ascii.isGraphic b = true) ∧
      ofString (literal b) = [0x27, b, 0x27] ∨
    ofString (literal b) = [0x30, 0x78, Ascii.ofChar (Ascii.hexDigit (b.toNat / 16)),
      Ascii.ofChar (Ascii.hexDigit (b.toNat % 16))] := by decide +kernel

theorem hexValue?_hexDigit : ∀ b : UInt8,
    Ascii.hexValue? (Ascii.ofChar (Ascii.hexDigit (b.toNat / 16))) = some (b / 16) ∧
      Ascii.hexValue? (Ascii.ofChar (Ascii.hexDigit (b.toNat % 16))) = some (b % 16) ∧
      16 * (b / 16) + b % 16 = b := by decide +kernel

theorem readLiteral_literal (b : UInt8) (rest : Bytes) :
    readLiteral (ofString (literal b) ++ rest) = some (b, rest) := by
  rcases literal_shape b with ⟨hescaped, htext⟩ | ⟨hescaped, hplain, htext⟩ | htext
  · rw [htext]
    exact if_pos hescaped
  · rw [htext]
    rw [List.cons_append, List.cons_append, List.cons_append, List.nil_append, readLiteral]
    · exact (if_neg hescaped).trans (if_pos hplain)
    · rintro last hb -
      exact hescaped (.inr hb)
  · obtain ⟨hhigh, hlow, hvalue⟩ := hexValue?_hexDigit b
    rw [htext]
    simp only [List.cons_append, List.nil_append, readLiteral, hhigh, hlow, Option.bind_eq_bind,
      Option.bind_some, hvalue]

/-! ## Conditions -/

theorem readTest_source (test : Test) (rest : Bytes) :
    readTest (ofString test.source ++ rest) = some (test, rest) := by
  cases test with
  | between first last =>
    have hread : readBetween (ofString (Test.between first last).source ++ rest) =
        some (.between first last, rest) := by
      simp only [readBetween, Test.source, ofString_append, List.append_assoc, expect_cons,
        expect_nil, readLiteral_literal, Option.bind_eq_bind, Option.bind_some]
    rw [readTest, hread]
    rfl
  | equals value =>
    have hread : readEquals (ofString (Test.equals value).source ++ rest) =
        some (.equals value, rest) := by
      simp only [readEquals, Test.source, ofString_append, List.append_assoc, expect_cons,
        expect_nil, readLiteral_literal, Option.bind_eq_bind, Option.bind_some]
    have hother : readBetween (ofString (Test.equals value).source ++ rest) = none := by
      rw [Test.source, ofString_append, List.append_assoc]
      rfl
    rw [readTest, hread, hother]
    rfl

/-- A test in parentheses. -/
def groupOf (test : Test) : String := "(" ++ test.source ++ ")"

theorem readGroup_groupOf (test : Test) (rest : Bytes) :
    readGroup (ofString (groupOf test) ++ rest) = some (test, rest) := by
  simp only [readGroup, groupOf, ofString_append, List.append_assoc, expect_cons, expect_nil,
    readTest_source, Option.bind_eq_bind, Option.bind_some]

/-- A test alone is not in parentheses. -/
theorem readGroup_source (test : Test) (rest : Bytes) :
    readGroup (ofString test.source ++ rest) = none := by
  cases test with
  | between first last =>
    rw [Test.source, ofString_append, ofString_append, ofString_append, List.append_assoc,
      List.append_assoc, List.append_assoc]
    rfl
  | equals value =>
    rw [Test.source, ofString_append, List.append_assoc]
    rfl

/-- A test after an `or`. -/
def alternativeOf (test : Test) : Bytes := ofString " || " ++ ofString (groupOf test)

theorem readAlternative_alternativeOf (test : Test) (rest : Bytes) :
    readAlternative (alternativeOf test ++ rest) = some (test, rest) := by
  rw [readAlternative, alternativeOf, List.append_assoc, expect_cons, expect_nil]
  exact readGroup_groupOf test rest

/-- Tests in parentheses, written as one condition. -/
theorem ofString_intercalate (test : Test) (tests : List Test) :
    ofString (" || ".intercalate ((test :: tests).map groupOf)) =
      ofString (groupOf test) ++ tests.flatMap alternativeOf := by
  induction tests generalizing test with
  | nil =>
    rw [List.map_cons, List.map_nil, String.intercalate_singleton, List.flatMap_nil,
      List.append_nil]
  | cons next tests ih =>
    rw [List.map_cons, List.map_cons, String.intercalate_cons_cons, ← List.map_cons,
      ofString_append, ofString_append, ih, List.flatMap_cons, alternativeOf, List.append_assoc,
      List.append_assoc]

theorem readCondition_condition {tests : List Test} (htests : tests ≠ [])
    (hrest : expect [" || "] rest = none) :
    readCondition (ofString (condition tests) ++ rest) = some (tests, rest) := by
  match tests, htests with
  | [test], _ => rw [readCondition, condition, readGroup_source, readTest_source, Option.map_some]
  | test :: next :: tests, _ =>
    have hcondition : ofString (condition (test :: next :: tests)) =
        ofString (groupOf test) ++ (next :: tests).flatMap alternativeOf :=
      ofString_intercalate test (next :: tests)
    have hstop : readAlternative rest = none := by
      rw [readAlternative, hrest]
      rfl
    have hmany : readMany readAlternative ((next :: tests).flatMap alternativeOf ++ rest) =
        ((next :: tests).map id, rest) :=
      readMany_flatMap _ (fun test _ => readAlternative_alternativeOf test)
        (fun _ _ => List.cons_ne_nil _ _) hstop
    rw [hcondition, List.append_assoc, readCondition, readGroup_groupOf]
    simp only [hmany, List.map_id]

end ActionRegex.Lexer
