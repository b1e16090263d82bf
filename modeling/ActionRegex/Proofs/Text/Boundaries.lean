import ActionRegex.Text.Bytes
import Mathlib.Data.FinEnum

/-!
# Character boundaries

A text may be cut only between characters (`slice?`). In UTF-8 the bytes of a character outside
ASCII are all high, and those after the first are marked as such (`isContinuation`). So a marked
byte never follows an ASCII one (`continued_ofString`), and a text may be cut on both sides of every
ASCII byte, also where it is read byte by byte (`isBoundary_of_edge`). What is cut off there is a
text again (`IsText.of_append_cons`).
-/

namespace ActionRegex.Bytes

/-! ## Cutting -/

/-- A byte of a character after its first one. -/
def isContinuation (b : UInt8) : Bool := 0x80 ≤ b && b < 0xc0

/-- A character starts at the position, or the text ends there. -/
def isBoundary (text : Bytes) (pos : Nat) : Bool :=
  match text[pos]? with
  | some b => !isContinuation b
  | none => pos == text.length

/-- The bytes from `start` up to, and not including, `stop`, if the text may be cut there. -/
def slice? (text : Bytes) (start stop : Nat) : Option Bytes :=
  if start ≤ stop ∧ stop ≤ text.length ∧ isBoundary text start ∧ isBoundary text stop then
    some ((text.drop start).take (stop - start))
  else none

/-! ## Edges of ASCII bytes -/

/-- No marked byte follows an ASCII byte. -/
def Continued (text : Bytes) : Prop :=
  text.IsChain fun a b => isContinuation b = true → Ascii.isHigh a = true

/-- An ASCII byte stands before or behind the position. -/
inductive Edge (text : Bytes) : Nat → Prop
  | before {pos : Nat} {b : UInt8} (h : text[pos]? = some b) (hb : Ascii.isHigh b = false) :
    Edge text pos
  | behind {pos : Nat} {b : UInt8} (h : text[pos]? = some b) (hb : Ascii.isHigh b = false) :
    Edge text (pos + 1)

theorem isContinuation_of_not_isHigh {b : UInt8} (h : Ascii.isHigh b = false) :
    isContinuation b = false := by
  have hlow : decide (0x80 ≤ b) = false := h
  rw [isContinuation, hlow, Bool.false_and]

variable {text : Bytes}

/-- **A text may be cut on both sides of an ASCII byte.** -/
theorem isBoundary_of_edge (htext : Continued text) {pos : Nat} (h : Edge text pos) :
    isBoundary text pos = true := by
  cases h with
  | before h hb =>
    rw [isBoundary, h]
    simp [isContinuation_of_not_isHigh hb]
  | @behind pos b h hb =>
    obtain ⟨hpos, hget⟩ := List.getElem?_eq_some_iff.mp h
    unfold isBoundary
    split
    · next c hc =>
      obtain ⟨hnext, hget'⟩ := List.getElem?_eq_some_iff.mp hc
      have hchain := List.isChain_iff_getElem.mp htext pos hnext
      rw [hget, hget', hb] at hchain
      simpa using hchain
    · next hnone =>
      have hle : text.length ≤ pos + 1 := List.getElem?_eq_none_iff.mp hnone
      exact beq_iff_eq.mpr (by omega)

theorem Edge.le_length {pos : Nat} (h : Edge text pos) : pos ≤ text.length := by
  cases h with
  | before h => exact Nat.le_of_lt (List.getElem?_eq_some_iff.mp h).1
  | behind h => exact (List.getElem?_eq_some_iff.mp h).1

theorem slice?_of_edges (htext : Continued text) {start stop : Nat} (hstart : Edge text start)
    (hstop : Edge text stop) (hle : start ≤ stop) :
    slice? text start stop = some ((text.drop start).take (stop - start)) :=
  if_pos ⟨hle, hstop.le_length, isBoundary_of_edge htext hstart, isBoundary_of_edge htext hstop⟩

/-! ## UTF-8 -/

theorem lead_two : ∀ x : UInt8, isContinuation (x &&& 31 ||| 192) = false ∧
    Ascii.isHigh (x &&& 31 ||| 192) = true := by decide +kernel

theorem lead_three : ∀ x : UInt8, isContinuation (x &&& 15 ||| 224) = false ∧
    Ascii.isHigh (x &&& 15 ||| 224) = true := by decide +kernel

theorem lead_four : ∀ x : UInt8, isContinuation (x &&& 7 ||| 240) = false ∧
    Ascii.isHigh (x &&& 7 ||| 240) = true := by decide +kernel

theorem isHigh_marked : ∀ x : UInt8, Ascii.isHigh (x &&& 63 ||| 128) = true := by decide +kernel

/-- The first byte of a character is not marked, and if there are more, all are high. -/
theorem utf8EncodeChar_shape (c : Char) : ∃ first rest, String.utf8EncodeChar c = first :: rest ∧
    isContinuation first = false ∧ (rest = [] ∨ ∀ b ∈ first :: rest, Ascii.isHigh b = true) := by
  rcases Char.utf8Size_eq c with hsize | hsize | hsize | hsize
  · refine ⟨_, [], String.utf8EncodeChar_eq_singleton hsize, isContinuation_of_not_isHigh ?_,
      .inl rfl⟩
    have hle : c.val.toNat ≤ 127 := UInt32.le_iff_toNat_le.mp (Char.utf8Size_eq_one_iff.mp hsize)
    have hbyte : c.val.toUInt8.toNat = c.val.toNat := by
      rw [UInt32.toNat_toUInt8]
      omega
    refine decide_eq_false ?_
    rw [UInt8.le_iff_toNat_le, hbyte]
    exact Nat.not_le_of_lt (Nat.lt_succ_of_le hle)
  · refine ⟨_, _, String.utf8EncodeChar_eq_cons_cons hsize, (lead_two _).1, .inr ?_⟩
    simp [lead_two, isHigh_marked]
  · refine ⟨_, _, String.utf8EncodeChar_eq_cons_cons_cons hsize, (lead_three _).1, .inr ?_⟩
    simp [lead_three, isHigh_marked]
  · refine ⟨_, _, String.utf8EncodeChar_eq_cons_cons_cons_cons hsize, (lead_four _).1, .inr ?_⟩
    simp [lead_four, isHigh_marked]

/-- **UTF-8 is continued.** -/
theorem continued_ofString (s : String) : Continued (ofString s) := by
  unfold ofString
  induction s.toList with
  | nil => exact List.isChain_nil
  | cons c rest ih =>
    obtain ⟨first, more, hencode, -, hshape⟩ := utf8EncodeChar_shape c
    rw [List.flatMap_cons, hencode]
    refine List.isChain_append.mpr ⟨?_, ih, ?_⟩
    · rcases hshape with rfl | hhigh
      · exact List.isChain_singleton _
      · exact List.isChain_iff_getElem.mpr fun i hi _ => hhigh _ (List.getElem_mem _)
    · -- the next character starts with a byte that is not marked
      intro x _ y hy hmarked
      cases rest with
      | nil => exact nomatch hy
      | cons c' rest =>
        obtain ⟨first', more', hencode', hfirst', -⟩ := utf8EncodeChar_shape c'
        rw [List.flatMap_cons, hencode'] at hy
        obtain rfl := Option.some.inj hy
        rw [hfirst'] at hmarked
        exact absurd hmarked Bool.false_ne_true

/-! ## Texts -/

/-- The bytes are those of a text. -/
def IsText (bytes : Bytes) : Prop := ∃ s, bytes = ofString s

theorem isText_flatMap (cs : List Char) : IsText (cs.flatMap String.utf8EncodeChar) :=
  ⟨String.ofList cs, by rw [ofString, String.toList_ofList]⟩

theorem IsText.append {l r : Bytes} (hl : IsText l) (hr : IsText r) : IsText (l ++ r) := by
  obtain ⟨s, rfl⟩ := hl
  obtain ⟨t, rfl⟩ := hr
  exact ⟨s ++ t, (ofString_append s t).symm⟩

theorem IsText.ofString_text {bytes : Bytes} (h : IsText bytes) :
    ofString (Bytes.text bytes) = bytes := by
  obtain ⟨s, rfl⟩ := h
  rw [text_ofString]

/-- An ASCII byte of a text is one of its characters. -/
theorem mem_toList_of_mem_ofString {s : String} {c : Char} {b : UInt8}
    (hc : String.utf8EncodeChar c = [b]) (hb : Ascii.isHigh b = false) (h : b ∈ ofString s) :
    c ∈ s.toList := by
  obtain ⟨c', hc', hmem⟩ := List.mem_flatMap.mp h
  obtain ⟨first, more, hencode, -, hshape⟩ := utf8EncodeChar_shape c'
  rw [hencode] at hmem
  rcases hshape with rfl | hhigh
  · obtain rfl := List.mem_singleton.mp hmem
    have hsame : ofString (String.ofList [c']) = ofString (String.ofList [c]) := by
      rw [ofString, ofString, String.toList_ofList, String.toList_ofList, List.flatMap_singleton,
        List.flatMap_singleton, hencode, hc]
    have hchars : [c'] = [c] := String.ofList_injective (ofString_injective hsame)
    obtain rfl := List.head_eq_of_cons_eq hchars
    exact hc'
  · rw [hhigh b hmem] at hb
    exact absurd hb (by decide)

/-- **What stands before and behind an ASCII byte of a text is a text.** -/
theorem IsText.of_append_cons {l r : Bytes} {b : UInt8} (h : IsText (l ++ b :: r))
    (hb : Ascii.isHigh b = false) : IsText l ∧ IsText r := by
  obtain ⟨s, hs⟩ := h
  rw [ofString] at hs
  generalize s.toList = cs at hs
  induction cs generalizing l with
  | nil => simp at hs
  | cons c cs ih =>
    obtain ⟨first, more, hencode, -, hshape⟩ := utf8EncodeChar_shape c
    rw [List.flatMap_cons] at hs
    rcases List.append_eq_append_iff.mp hs with ⟨l', hchar, hrest⟩ | ⟨l', rfl, hrest⟩
    · cases l' with
      | nil =>
        rw [List.append_nil] at hchar
        refine ⟨?_, (ih (l := []) hrest).2⟩
        rw [← hchar, ← List.append_nil (String.utf8EncodeChar c)]
        exact isText_flatMap [c]
      | cons b' more' =>
        -- the byte stands in the first character, so it is all of it
        obtain ⟨rfl, rfl⟩ := List.cons.inj hrest
        rw [hencode] at hchar
        rcases hshape with rfl | hhigh
        · obtain ⟨rfl, hsingle⟩ :=
            List.append_eq_singleton_iff.mp hchar.symm |>.resolve_right (by simp)
          obtain rfl := (List.cons.inj hsingle).2
          exact ⟨isText_flatMap [], isText_flatMap cs⟩
        · have hmem : b ∈ first :: more := hchar ▸ List.mem_append_right l List.mem_cons_self
          rw [hhigh b hmem] at hb
          exact absurd hb (by decide)
    · obtain ⟨hl', hr⟩ := ih hrest.symm
      refine ⟨IsText.append ?_ hl', hr⟩
      rw [← List.append_nil (String.utf8EncodeChar c)]
      exact isText_flatMap [c]

end ActionRegex.Bytes
