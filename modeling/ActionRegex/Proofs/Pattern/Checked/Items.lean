import ActionRegex.Proofs.Pattern.Checked.Escapes
import ActionRegex.Proofs.Text.Boundaries

/-!
# Cutting items out of the text

The name of a macro, the digits of a bound and the text of an action block are cut out of the text
between two positions, and a cut that is out of range or inside a character has no result. Reading
goes byte by byte, also through characters outside ASCII, so a position may well be inside one. But
names and digits are ASCII themselves, and an action block is cut out between two braces: in UTF-8
every cut has a result (`follows_readItem`).
-/

namespace ActionRegex.Pattern

namespace Checked

open Bytes (slice? slice?_of_edges Continued Edge)

variable {text : Bytes}

/-! ## Runs of bytes -/

/-- The position behind the bytes that satisfy a condition. -/
def skip (text : Bytes) (p : UInt8 → Bool) (pos : Nat) : Nat :=
  match _hb : text[pos]? with
  | none => pos
  | some b => if p b then skip text p (pos + 1) else pos
termination_by text.length - pos
decreasing_by
  have := lt_length _hb
  omega

theorem skip_eq (text : Bytes) (p : UInt8 → Bool) (pos : Nat) :
    skip text p pos = pos + ((text.drop pos).takeWhile p).length ∧
      text.drop (skip text p pos) = (text.drop pos).dropWhile p := by
  fun_induction skip text p pos with
  | case1 pos hb => simp [drop_of_none hb]
  | case2 pos b hb hp ih =>
    rw [drop_of_some hb, List.takeWhile_cons_of_pos hp, List.dropWhile_cons_of_pos hp,
      List.length_cons]
    refine ⟨?_, ih.2⟩
    rw [ih.1]
    omega
  | case3 pos b hb hp =>
    rw [drop_of_some hb, List.takeWhile_cons_of_neg hp, List.dropWhile_cons_of_neg hp]
    exact ⟨rfl, rfl⟩

theorem edge_skip {p : UInt8 → Bool} (hp : ∀ b, p b = true → Ascii.isHigh b = false) {pos : Nat}
    (h : Edge text pos) : Edge text (skip text p pos) := by
  fun_induction skip text p pos with
  | case1 => exact h
  | case2 pos b hb htrue ih => exact ih (.behind hb (hp b htrue))
  | case3 => exact h

/-- A run of ASCII bytes behind or before an ASCII byte can be cut out. -/
theorem slice?_skip (htext : Continued text) {p : UInt8 → Bool}
    (hp : ∀ b, p b = true → Ascii.isHigh b = false) {pos : Nat} (h : Edge text pos) :
    slice? text pos (skip text p pos) = some ((text.drop pos).takeWhile p) := by
  obtain ⟨hskip, -⟩ := skip_eq text p pos
  rw [slice?_of_edges htext h (edge_skip hp h) (by omega), hskip, Nat.add_sub_cancel_left]
  exact congrArg some (List.prefix_iff_eq_take.mp (List.takeWhile_prefix p)).symm

theorem isHigh_of_isWordByte :
    ∀ b : UInt8, Ascii.isWordByte b = true → Ascii.isHigh b = false := by
  decide +kernel

theorem isHigh_of_isDigit : ∀ b : UInt8, Ascii.isDigit b = true → Ascii.isHigh b = false := by
  decide +kernel

theorem isWordByte_of_isLetter {b : UInt8} (h : Ascii.isLetter b = true) :
    Ascii.isWordByte b = true := by
  rw [Ascii.isWordByte, h, Bool.true_or, Bool.true_or]

/-! ## Names -/

/-- Reads the name at a position. -/
def readName (text : Bytes) (start : Nat) : Option (Except Error (Item × Nat)) :=
  let stop := skip text Ascii.isWordByte start
  (slice? text start stop).map fun name => .ok (.name name, stop)

theorem follows_readName (htext : Continued text) {start : Nat} {b : UInt8}
    (hb : text[start]? = some b) (hletter : Ascii.isLetter b = true) :
    Follows text (readName text start)
      (.ok (Pattern.readName start b (text.drop (start + 1)))) := by
  have hword := isWordByte_of_isLetter hletter
  have hslice := slice?_skip htext isHigh_of_isWordByte
    (.before hb (isHigh_of_isWordByte b hword))
  obtain ⟨hskip, hdrop⟩ := skip_eq text Ascii.isWordByte start
  rw [drop_of_some hb, List.takeWhile_cons_of_pos hword] at hslice hskip
  rw [drop_of_some hb, List.dropWhile_cons_of_pos hword] at hdrop
  rw [List.length_cons] at hskip
  unfold readName Pattern.readName
  simp only [hslice, Option.map_some]
  rw [show start + 1 + _ = skip text Ascii.isWordByte start by rw [hskip]; omega]
  exact .ok_of_drop _ hdrop

/-! ## Bounds -/

/-- Reads the digits of a bound, if there are any. -/
def readBound (text : Bytes) (start pos : Nat) : Option (Except Error (Option Nat × Nat)) :=
  let stop := skip text Ascii.isDigit pos
  if stop = pos then some (.ok (none, pos))
  else
    (slice? text pos stop).map fun digits =>
      if Ascii.decimal digits ≤ maxBound then .ok (some (Ascii.decimal digits), stop)
      else .error ⟨.tooManyRepetitions, ⟨start, stop⟩⟩

theorem follows_readBound (htext : Continued text) (start : Nat) {pos : Nat}
    (h : Edge text pos) :
    Follows text (readBound text start pos) (Pattern.readBound start (cursorAt text pos)) := by
  obtain ⟨hskip, hdrop⟩ := skip_eq text Ascii.isDigit pos
  have hempty : skip text Ascii.isDigit pos = pos ↔
      ((text.drop pos).takeWhile Ascii.isDigit).isEmpty = true := by
    rw [hskip, List.isEmpty_iff_length_eq_zero]
    omega
  unfold readBound Pattern.readBound
  simp only [slice?_skip htext isHigh_of_isDigit h, hempty, Option.map_some, cursorAt, ← hskip]
  split_ifs
  · exact .ok _ _
  · exact .ok_of_drop _ hdrop
  · exact .error _

/-- Reads the brace that ends a repetition. -/
def readClosingBrace (text : Bytes) (start : Nat) (item : Item) (pos : Nat) :
    Except Error (Item × Nat) :=
  if text[pos]? = some Ascii.rightBrace then .ok (item, pos + 1)
  else .error ⟨.missingBrace, ⟨start, pos⟩⟩

theorem follows_readClosingBrace (text : Bytes) (start : Nat) (item : Item) (pos : Nat) :
    Follows text (some (readClosingBrace text start item pos))
      (Pattern.readClosingBrace start item (cursorAt text pos)) := by
  unfold readClosingBrace Pattern.readClosingBrace
  simp only [cursorAt, List.head?_drop, List.tail_drop]
  split_ifs
  · exact .ok _ _
  · exact .error _

/-- Reads the bounds in braces at a position. -/
def readRepetition (text : Bytes) (start : Nat) : Option (Except Error (Item × Nat)) :=
  match readBound text start (start + 1) with
  | none => none
  | some (.error e) => some (.error e)
  | some (.ok (min, pos)) =>
    if text[pos]? = some Ascii.comma then
      match readBound text start (pos + 1) with
      | none => none
      | some (.error e) => some (.error e)
      | some (.ok (max, pos)) =>
        some (readClosingBrace text start (.repetition (min.getD 0) max) pos)
    else
      some (readClosingBrace text start (.repetition (min.getD 0) (some (min.getD 0))) pos)

theorem follows_readRepetition (htext : Continued text) {start : Nat}
    (hbrace : text[start]? = some Ascii.leftBrace) :
    Follows text (readRepetition text start)
      (Pattern.readRepetition start (text.drop (start + 1))) := by
  have hmin := follows_readBound htext start (.behind hbrace (by decide))
  unfold readRepetition Pattern.readRepetition
  generalize readBound text start (start + 1) = checked at hmin ⊢
  rw [show (⟨start + 1, text.drop (start + 1)⟩ : Cursor) = cursorAt text (start + 1) from rfl]
  generalize Pattern.readBound start _ = reading at hmin ⊢
  cases hmin with
  | error e => exact .error e
  | ok min pos =>
    simp only [cursorAt, List.head?_drop, List.tail_drop]
    split_ifs with hcomma
    · have hmax := follows_readBound htext start (.behind hcomma (by decide))
      generalize readBound text start (pos + 1) = checked at hmax ⊢
      rw [cursorAt] at hmax
      generalize Pattern.readBound start _ = reading at hmax ⊢
      cases hmax with
      | error e => exact .error e
      | ok max pos => exact follows_readClosingBrace _ _ _ _
    · exact follows_readClosingBrace _ _ _ _

/-! ## Action blocks -/

theorem le_next (text : Bytes) (pos : Nat) : pos ≤ (next text pos).2 := by
  unfold next
  split
  · exact Nat.le_refl pos
  · exact Nat.le_succ pos

/-- The position behind the literal that a quote has opened, if it is closed. -/
def literalEnd? (text : Bytes) (quote : UInt8) (pos : Nat) : Option Nat :=
  match _hb : text[pos]? with
  | none => none
  | some b =>
    if b = Ascii.backslash then literalEnd? text quote (next text (pos + 1)).2
    else if b = quote then some (pos + 1)
    else literalEnd? text quote (pos + 1)
termination_by text.length - pos
decreasing_by
  · have := lt_length _hb
    have := le_next text (pos + 1)
    omega
  · have := lt_length _hb
    omega

theorem lt_of_literalEnd? {quote : UInt8} {pos stop : Nat}
    (h : literalEnd? text quote pos = some stop) : pos < stop := by
  fun_induction literalEnd? text quote pos with
  | case1 => simp at h
  | case2 pos hb ih =>
    have := le_next text (pos + 1)
    have := ih h
    omega
  | case3 pos hb =>
    obtain rfl := Option.some.inj h
    exact Nat.lt_succ_self pos
  | case4 pos b hb hbackslash hne ih =>
    have := ih h
    omega

/-- The position behind the brace that closes the last of the open braces, if there is one. -/
def blockEnd? (text : Bytes) (depth pos : Nat) : Option Nat :=
  match depth with
  | 0 => some pos
  | outer + 1 =>
    match _hb : text[pos]? with
    | none => none
    | some b =>
      if b = Ascii.leftBrace then blockEnd? text (outer + 2) (pos + 1)
      else if b = Ascii.rightBrace then blockEnd? text outer (pos + 1)
      else if b = Ascii.doubleQuote ∨ b = Ascii.quote then
        match _h : literalEnd? text b (pos + 1) with
        | none => none
        | some stop => blockEnd? text (outer + 1) stop
      else blockEnd? text (outer + 1) (pos + 1)
termination_by text.length - pos
decreasing_by
  · have := lt_length _hb
    omega
  · have := lt_length _hb
    omega
  · have := lt_length _hb
    have := lt_of_literalEnd? _h
    omega
  · have := lt_length _hb
    omega

theorem literalEnd?_of_none {quote : UInt8} {pos : Nat} (hb : text[pos]? = none) :
    literalEnd? text quote pos = none := by
  rw [literalEnd?]
  split <;> simp_all

theorem literalEnd?_of_some {quote b : UInt8} {pos : Nat} (hb : text[pos]? = some b) :
    literalEnd? text quote pos =
      if b = Ascii.backslash then literalEnd? text quote (next text (pos + 1)).2
      else if b = quote then some (pos + 1)
      else literalEnd? text quote (pos + 1) := by
  rw [literalEnd?]
  split <;> simp_all

theorem blockEnd?_of_none {outer pos : Nat} (hb : text[pos]? = none) :
    blockEnd? text (outer + 1) pos = none := by
  rw [blockEnd?]
  split <;> simp_all

theorem blockEnd?_of_some {outer pos : Nat} {b : UInt8} (hb : text[pos]? = some b) :
    blockEnd? text (outer + 1) pos =
      if b = Ascii.leftBrace then blockEnd? text (outer + 2) (pos + 1)
      else if b = Ascii.rightBrace then blockEnd? text outer (pos + 1)
      else if b = Ascii.doubleQuote ∨ b = Ascii.quote then
        (literalEnd? text b (pos + 1)).bind (blockEnd? text (outer + 1))
      else blockEnd? text (outer + 1) (pos + 1) := by
  rw [blockEnd?]
  split
  · simp_all
  · next c hc =>
    obtain rfl := Option.some.inj (hb.symm.trans hc)
    split_ifs
    · rfl
    · rfl
    · split <;> simp [*]
    · rfl

/-- The position behind the closing brace, searched for from inside a block. -/
def endFrom? (text : Bytes) (depth pos : Nat) : BlockState → Option Nat
  | .code => blockEnd? text (depth + 1) pos
  | .literal quote => (literalEnd? text quote pos).bind (blockEnd? text (depth + 1))
  | .escaped quote =>
    (literalEnd? text quote (next text pos).2).bind (blockEnd? text (depth + 1))

theorem eq_some_of_drop {pos : Nat} {b : UInt8} {rest : Bytes} (h : text.drop pos = b :: rest) :
    text[pos]? = some b ∧ text.drop (pos + 1) = rest := by
  rw [← List.head?_drop, ← List.tail_drop, h]
  exact ⟨rfl, rfl⟩

/-- Two nested loops find the closing brace that the reader with a state finds. -/
theorem endFrom?_eq (start : Nat) {state : BlockState} {depth count : Nat} {bytes : Bytes}
    (hbytes : text.drop (start + count) = bytes) :
    endFrom? text depth (start + count) state =
      (blockLength state depth count bytes).map (start + · + 1) := by
  fun_induction blockLength state depth count bytes with
  | case1 state depth count =>
    have hnone : text[start + count]? = none := by rw [← List.head?_drop, hbytes]; rfl
    cases state with
    | code => exact blockEnd?_of_none hnone
    | literal quote => rw [endFrom?, literalEnd?_of_none hnone]; rfl
    | escaped quote => rw [endFrom?, next_of_none hnone, literalEnd?_of_none hnone]; rfl
  | case2 depth count rest ih =>
    obtain ⟨hb, hrest⟩ := eq_some_of_drop hbytes
    rw [endFrom?, blockEnd?_of_some hb, if_pos rfl]
    exact ih hrest
  | case3 count rest hleft =>
    obtain ⟨hb, hrest⟩ := eq_some_of_drop hbytes
    rw [endFrom?, blockEnd?_of_some hb, if_neg hleft, if_pos rfl, blockEnd?]
    rfl
  | case4 depth count rest hdepth hleft ih =>
    obtain ⟨hb, hrest⟩ := eq_some_of_drop hbytes
    obtain ⟨depth, rfl⟩ := Nat.exists_eq_succ_of_ne_zero hdepth
    rw [endFrom?, blockEnd?_of_some hb, if_neg hleft, if_pos rfl]
    exact ih hrest
  | case5 depth count b rest hleft hright hquote ih =>
    obtain ⟨hb, hrest⟩ := eq_some_of_drop hbytes
    rw [endFrom?, blockEnd?_of_some hb, if_neg hleft, if_neg hright, if_pos hquote]
    exact ih hrest
  | case6 depth count b rest hleft hright hquote ih =>
    obtain ⟨hb, hrest⟩ := eq_some_of_drop hbytes
    rw [endFrom?, blockEnd?_of_some hb, if_neg hleft, if_neg hright, if_neg hquote]
    exact ih hrest
  | case7 quote depth count rest ih =>
    obtain ⟨hb, hrest⟩ := eq_some_of_drop hbytes
    rw [endFrom?, literalEnd?_of_some hb, if_pos rfl]
    exact ih hrest
  | case8 depth count quote rest hbackslash ih =>
    obtain ⟨hb, hrest⟩ := eq_some_of_drop hbytes
    rw [endFrom?, literalEnd?_of_some hb, if_neg hbackslash, if_pos rfl]
    exact ih hrest
  | case9 quote depth count b rest hbackslash hne ih =>
    obtain ⟨hb, hrest⟩ := eq_some_of_drop hbytes
    rw [endFrom?, literalEnd?_of_some hb, if_neg hbackslash, if_neg hne]
    exact ih hrest
  | case10 quote depth count b rest ih =>
    obtain ⟨hb, hrest⟩ := eq_some_of_drop hbytes
    rw [endFrom?, next_of_some hb]
    exact ih hrest

/-- A block ends at a closing brace. -/
theorem rightBrace_of_blockLength {state : BlockState} {depth count n : Nat} {bytes : Bytes}
    (h : blockLength state depth count bytes = some n) :
    ∃ k, n = count + k ∧ bytes[k]? = some Ascii.rightBrace := by
  fun_induction blockLength state depth count bytes with
  | case1 => simp at h
  | case3 count rest => exact ⟨0, (Option.some.inj h).symm, rfl⟩
  | case2 _ _ _ ih | case4 _ _ _ _ _ ih | case5 _ _ _ _ _ _ _ ih | case6 _ _ _ _ _ _ _ ih
  | case7 _ _ _ _ ih | case8 _ _ _ _ _ ih | case9 _ _ _ _ _ _ _ ih | case10 _ _ _ _ _ ih =>
    obtain ⟨k, rfl, hk⟩ := ih h
    exact ⟨k + 1, by omega, hk⟩

/-- Reads the action block at a position. -/
def readAction (text : Bytes) (start : Nat) : Option (Except Error (Item × Nat)) :=
  match blockEnd? text 1 (start + 1) with
  | none => some (.error ⟨.unexpectedEnd, ⟨start, text.length⟩⟩)
  | some stop =>
    (slice? text (start + 1) (stop - 1)).map fun body => .ok (.action body, stop)

/-- A block is cut out between its braces. -/
theorem follows_readAction (htext : Continued text) {start : Nat}
    (hbrace : text[start]? = some Ascii.leftBrace) :
    Follows text (readAction text start)
      (Pattern.readAction start (text.drop (start + 1))) := by
  have hend : blockEnd? text 1 (start + 1) =
      (blockLength .code 0 0 (text.drop (start + 1))).map (start + 1 + · + 1) :=
    @endFrom?_eq text (start + 1) .code 0 0 _ rfl
  unfold readAction Pattern.readAction
  rw [hend]
  cases hlength : blockLength .code 0 0 (text.drop (start + 1)) with
  | none =>
    have hlt := lt_length hbrace
    rw [List.length_drop, Nat.add_sub_cancel' hlt]
    exact .error _
  | some n =>
    obtain ⟨k, hn, hright⟩ := rightBrace_of_blockLength hlength
    obtain rfl : n = k := by rw [hn, Nat.zero_add]
    rw [List.getElem?_drop] at hright
    have hslice := slice?_of_edges htext (.behind hbrace (by decide))
      (.before hright (by decide)) (by omega)
    rw [Nat.add_sub_cancel_left] at hslice
    simp only [Option.map_some, Nat.add_sub_cancel, hslice]
    rw [show start + n + 2 = start + 1 + n + 1 by omega, List.drop_drop]
    exact .ok _ _

/-! ## Items -/

/-- An escape as an item. -/
def readEscapeItem (text : Bytes) (pos : Nat) : Except Error (Item × Nat) :=
  match readEscape text true pos with
  | .error e => .error e
  | .ok (.inl value, next) => .ok (.byte value, next)
  | .ok (.inr set, next) => .ok (.oneOf set, next)

theorem follows_readEscapeItem (text : Bytes) (pos : Nat) :
    Follows text (some (readEscapeItem text pos))
      (Pattern.readEscapeItem pos (text.drop (pos + 1))) := by
  have hfollows := follows_readEscape text pos
  unfold readEscapeItem Pattern.readEscapeItem
  generalize readEscape text true pos = checked at hfollows ⊢
  generalize Pattern.readEscape pos _ = reading at hfollows ⊢
  cases hfollows with
  | error e => exact .error e
  | ok value next => cases value <;> exact .ok _ _

/-- Quoted text as an item. -/
def readQuotedItem (text : Bytes) (pos : Nat) (delimiter : UInt8) :
    Option (Except Error (Item × Nat)) :=
  (readQuoted text delimiter pos (pos + 1) []).map (Except.map (Prod.map Item.quoted id))

theorem follows_readQuotedItem (text : Bytes) (pos : Nat) (delimiter : UInt8) :
    Follows text (readQuotedItem text pos delimiter)
      (Pattern.readQuotedItem pos delimiter (text.drop (pos + 1))) := by
  have hfollows := follows_readQuoted text delimiter pos (pos + 1) []
  unfold readQuotedItem Pattern.readQuotedItem
  rw [cursorAt] at hfollows
  generalize readQuoted text delimiter pos (pos + 1) [] = checked at hfollows ⊢
  generalize Pattern.readQuoted delimiter pos _ [] = reading at hfollows ⊢
  cases hfollows with
  | error e => exact .error e
  | ok bytes next => exact .ok _ _

/-- Reads the item at a position, which starts with the byte `b`. -/
def readItem (text : Bytes) (pos : Nat) (b : UInt8) : Option (Except Error (Item × Nat)) :=
  match ofPunctuation? b with
  | some item => some (.ok (item, pos + 1))
  | none =>
    if b = Ascii.leftBrace then
      if text[pos + 1]?.any fun c => Ascii.isDigit c || c == Ascii.comma then
        readRepetition text pos
      else readAction text pos
    else if b = Ascii.leftBracket then readClass text pos
    else if b = Ascii.backslash then some (readEscapeItem text pos)
    else if b = Ascii.quote ∨ b = Ascii.doubleQuote then readQuotedItem text pos b
    else if Ascii.isLetter b then readName text pos
    else if isLiteral b then some (.ok (.byte b, pos + 1))
    else some (.error (unexpectedChar (cursorAt text pos)))

/-- **In UTF-8 every item is read without a failed access**, as it is from a cursor on. -/
theorem follows_readItem (htext : Continued text) {pos : Nat} {b : UInt8}
    (hb : text[pos]? = some b) :
    Follows text (readItem text pos b) (Pattern.readItem pos b (text.drop (pos + 1))) := by
  unfold readItem Pattern.readItem
  cases ofPunctuation? b with
  | some item => exact .ok _ _
  | none =>
    simp only [startsBounds, List.head?_drop]
    split_ifs with hbrace _ _ _ _ hletter _
    · exact follows_readRepetition htext (hbrace ▸ hb)
    · exact follows_readAction htext (hbrace ▸ hb)
    · exact follows_readClass text pos
    · exact follows_readEscapeItem text pos
    · exact follows_readQuotedItem text pos b
    · exact follows_readName htext hb hletter
    · exact .ok _ _
    · rw [cursorAt, drop_of_some hb]
      exact .error _

end Checked

end ActionRegex.Pattern
