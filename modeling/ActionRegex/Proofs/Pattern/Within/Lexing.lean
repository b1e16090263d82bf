import ActionRegex.Proofs.Pattern.Blocks
import Mathlib.Data.FinEnum
import Mathlib.Tactic.FinCases

/-!
# Reading inside a longer text

A text inside a longer one is read as it is read alone, but for its positions: a reader that
succeeds on the text alone takes the same bytes of the longer text (`…_within`). Whatever has an end
of its own ends where it ended, also if the text ends there: escapes, quoted text, classes,
repetitions and action blocks. Only a name at the end of the text could go on behind it.
-/

namespace ActionRegex

/-- A span as many bytes further on. -/
def Span.move (before : Nat) (span : Span) : Span := ⟨before + span.start, before + span.stop⟩

namespace Pattern

/-- A cursor inside a longer text, which has `before` bytes in front and `after` behind. -/
def Cursor.within (before : Nat) (after : Bytes) (cursor : Cursor) : Cursor :=
  ⟨before + cursor.pos, cursor.rest ++ after⟩

variable {before : Nat} {after : Bytes}

/-! ## Escapes and quoted text -/

theorem readEscapedByte_within {start : Nat} {input : Bytes} {b : UInt8} {next : Cursor}
    (h : readEscapedByte start input = .ok (b, next)) (before : Nat) (after : Bytes) :
    readEscapedByte (before + start) (input ++ after) = .ok (b, next.within before after) := by
  unfold readEscapedByte at h
  split at h
  · simp at h
  · next c rest =>
    rw [List.cons_append]
    unfold readEscapedByte
    dsimp only
    split_ifs at h ⊢
    · obtain ⟨rfl, rfl⟩ := Prod.mk.inj (Except.ok.inj h)
      rfl
    · obtain ⟨rfl, rfl⟩ := Prod.mk.inj (Except.ok.inj h)
      rfl
    · obtain ⟨rfl, rfl⟩ := Prod.mk.inj (Except.ok.inj h)
      rfl
    · obtain ⟨rfl, rfl⟩ := Prod.mk.inj (Except.ok.inj h)
      rfl
    · split at h
      · next hi lo rest =>
        split at h
        · next high low hhigh hlow =>
          obtain ⟨rfl, rfl⟩ := Prod.mk.inj (Except.ok.inj h)
          simp only [List.cons_append, hhigh, hlow]
          rfl
        · simp at h
      · simp at h
    · split at h
      · simp at h
      · obtain ⟨rfl, rfl⟩ := Prod.mk.inj (Except.ok.inj h)
        rfl
    · obtain ⟨rfl, rfl⟩ := Prod.mk.inj (Except.ok.inj h)
      rfl

theorem readEscape_within {start : Nat} {input : Bytes} {result : UInt8 ⊕ ByteSet} {next : Cursor}
    (h : readEscape start input = .ok (result, next)) :
    readEscape (before + start) (input ++ after) = .ok (result, next.within before after) := by
  cases input with
  | nil => simp [readEscape, readEscapedByte] at h
  | cons c rest =>
    rw [List.cons_append]
    unfold readEscape at h ⊢
    split at h
    · next set hset =>
      obtain ⟨rfl, rfl⟩ := Prod.mk.inj (Except.ok.inj h)
      simp only [List.head?_cons] at hset ⊢
      rw [hset]
      rfl
    · next hset =>
      simp only [List.head?_cons] at hset ⊢
      rw [hset]
      split at h
      · next hescape =>
        obtain ⟨rfl, rfl⟩ := Prod.mk.inj (Except.ok.inj h)
        have hwithin := readEscapedByte_within hescape before after
        rw [List.cons_append] at hwithin
        rw [hwithin]
      · simp at h

theorem readQuoted_within {delimiter : UInt8} {start : Nat} {cursor next : Cursor}
    {read bytes : Bytes} (h : readQuoted delimiter start cursor read = .ok (bytes, next))
    (before : Nat) (after : Bytes) :
    readQuoted delimiter (before + start) (cursor.within before after) read =
      .ok (bytes, next.within before after) := by
  fun_induction readQuoted delimiter start cursor read with
  | case1 => simp at h
  | case2 cursor read rest hrest =>
    obtain ⟨pos, _⟩ := cursor
    obtain rfl := hrest
    obtain ⟨rfl, rfl⟩ := Prod.mk.inj (Except.ok.inj h)
    rw [readQuoted]
    simp [Cursor.within]
    rfl
  | case3 => simp at h
  | case4 cursor read rest value next' hescape hrest hne ih =>
    obtain ⟨pos, _⟩ := cursor
    obtain rfl := hrest
    have hwithin := readEscapedByte_within hescape before after
    unfold readQuoted
    simp only [Cursor.within, List.cons_append, if_neg hne, if_true]
    split
    · next hescape' =>
      rw [hwithin] at hescape'
      simp at hescape'
    · next hescape' =>
      obtain ⟨rfl, rfl⟩ := Prod.mk.inj (Except.ok.inj (hwithin.symm.trans hescape'))
      exact ih h
  | case5 cursor read b rest hrest hne hbackslash ih =>
    obtain ⟨pos, _⟩ := cursor
    obtain rfl := hrest
    unfold readQuoted
    simp only [Cursor.within, List.cons_append, if_neg hne, if_neg hbackslash]
    exact ih h

/-! ## Classes -/

theorem closeRange_within {itemStart : Nat} {first last : UInt8} {cursor next : Cursor}
    {set : ByteSet} (h : closeRange itemStart first last cursor = .ok (set, next)) :
    closeRange (before + itemStart) first last (cursor.within before after) =
      .ok (set, next.within before after) := by
  unfold closeRange at h ⊢
  split at h
  · simp at h
  · next hle =>
    obtain ⟨rfl, rfl⟩ := Prod.mk.inj (Except.ok.inj h)
    exact if_neg hle

/-- A range in a longer text, unless the text ends in the middle of it and goes on. -/
theorem readRange_within {itemStart : Nat} {first : UInt8} {cursor next : Cursor} {set : ByteSet}
    (h : readRange itemStart first cursor = .ok (set, next))
    (hnext : next.rest = [Ascii.minus] → after = [])
    (hafter : next.rest = [] → after = []) :
    readRange (before + itemStart) first (cursor.within before after) =
      .ok (set, next.within before after) := by
  obtain ⟨pos, bytes⟩ := cursor
  unfold readRange at h
  simp only at h
  split at h
  · next minus last rest =>
    unfold readRange
    simp only [Cursor.within, List.cons_append]
    split_ifs at h ⊢ with hrange hlast
    · split at h
      · simp at h
      · next value next' hescape =>
        have hwithin := readEscapedByte_within hescape before after
        rw [← Nat.add_assoc] at hwithin
        rw [hwithin]
        exact closeRange_within h
    · exact closeRange_within h
    · obtain ⟨rfl, rfl⟩ := Prod.mk.inj (Except.ok.inj h)
      rfl
  · next hshort =>
    obtain ⟨rfl, rfl⟩ := Prod.mk.inj (Except.ok.inj h)
    have hnot : ∀ minus last rest, bytes ++ after = minus :: last :: rest →
        minus ≠ Ascii.minus := by
      rintro minus last rest hbytes rfl
      cases bytes with
      | nil =>
        rw [hafter rfl] at hbytes
        exact nomatch hbytes
      | cons b bytes =>
        cases bytes with
        | nil =>
          obtain ⟨rfl, htail⟩ := List.cons.inj hbytes
          rw [hnext rfl] at htail
          cases htail
        | cons c bytes => exact hshort _ _ _ rfl
    unfold readRange
    simp only [Cursor.within]
    split
    · next minus last rest hbytes => rw [if_neg fun h => hnot minus last rest hbytes h.1]
    · rfl

theorem map_readRange_within {itemStart : Nat} {first : UInt8} {cursor next : Cursor}
    {set : Option ByteSet}
    (h : (readRange itemStart first cursor).map (Prod.map some id) = .ok (set, next))
    (hnext : next.rest = [Ascii.minus] → after = []) (hafter : next.rest = [] → after = []) :
    (readRange (before + itemStart) first (cursor.within before after)).map (Prod.map some id) =
      .ok (set, next.within before after) := by
  cases hrange : readRange itemStart first cursor with
  | error e => simp [hrange, Except.map] at h
  | ok result =>
    obtain ⟨members, next'⟩ := result
    rw [hrange] at h
    obtain ⟨rfl, rfl⟩ := Prod.mk.inj (Except.ok.inj h)
    rw [readRange_within hrange hnext hafter]
    rfl

theorem readClassItem_within {start : Nat} {cursor next : Cursor} {set : Option ByteSet}
    (h : readClassItem start cursor = .ok (set, next))
    (hnext : set.isSome = true → next.rest = [Ascii.minus] → after = [])
    (hafter : set.isSome = true → next.rest = [] → after = []) (before : Nat) :
    readClassItem (before + start) (cursor.within before after) =
      .ok (set, next.within before after) := by
  obtain ⟨pos, bytes⟩ := cursor
  unfold readClassItem at h
  simp only at h
  split at h
  · simp at h
  · next b rest =>
    unfold readClassItem
    simp only [Cursor.within, List.cons_append]
    split_ifs at h ⊢
    · obtain ⟨rfl, rfl⟩ := Prod.mk.inj (Except.ok.inj h)
      rfl
    · obtain ⟨rfl, rfl⟩ := Prod.mk.inj (Except.ok.inj h)
      rfl
    · split at h
      · simp at h
      · next members next' hescape =>
        obtain ⟨rfl, rfl⟩ := Prod.mk.inj (Except.ok.inj h)
        rw [readEscape_within hescape]
        rfl
      · next first next' hescape =>
        rw [readEscape_within hescape]
        have hsome := (reads_map_readRange h).2
        exact map_readRange_within h (hnext hsome) (hafter hsome)
    · have hsome := (reads_map_readRange h).2
      exact map_readRange_within h (hnext hsome) (hafter hsome)

/-- A class goes on to its bracket. -/
theorem rest_ne_nil_of_readClassItems {start : Nat} {cursor next : Cursor} {set result : ByteSet}
    (h : readClassItems start cursor set = .ok (result, next)) : cursor.rest ≠ [] := by
  have hlength := readClassItems_rest h
  intro hrest
  rw [hrest] at hlength
  exact Nat.not_lt_zero _ hlength

/-- A minus is not the last thing in front of the bracket that closes a class. -/
theorem rest_ne_minus_of_readClassItems {start : Nat} {cursor next : Cursor} {set result : ByteSet}
    (h : readClassItems start cursor set = .ok (result, next)) : cursor.rest ≠ [Ascii.minus] := by
  intro hrest
  obtain ⟨pos, _⟩ := cursor
  obtain rfl := hrest
  have hitem : readClassItem start ⟨pos, [Ascii.minus]⟩ =
      .ok (some (ByteSet.singleton Ascii.minus), ⟨pos + 1, []⟩) := rfl
  rw [readClassItems_of_some hitem] at h
  exact rest_ne_nil_of_readClassItems h rfl

theorem readClassItems_within {start : Nat} {cursor next : Cursor} {set result : ByteSet}
    (h : readClassItems start cursor set = .ok (result, next)) :
    readClassItems (before + start) (cursor.within before after) set =
      .ok (result, next.within before after) := by
  fun_induction readClassItems start cursor set with
  | case1 => simp at h
  | case2 cursor set next' hitem =>
    obtain ⟨rfl, rfl⟩ := Prod.mk.inj (Except.ok.inj h)
    exact readClassItems_of_none (readClassItem_within hitem (by simp) (by simp) before) set
  | case3 cursor set members next' hitem ih =>
    have hwithin : readClassItem (before + start) (cursor.within before after) =
        .ok (some members, next'.within before after) := by
      refine readClassItem_within hitem (fun _ hminus => ?_) (fun _ hnil => ?_) before
      · exact absurd hminus (rest_ne_minus_of_readClassItems h)
      · exact absurd hnil (rest_ne_nil_of_readClassItems h)
    rw [readClassItems_of_some hwithin]
    exact ih h

theorem closeClass_within {start : Nat} {set : ByteSet} {cursor next : Cursor} {item : Item}
    (h : closeClass start set cursor = .ok (item, next)) :
    closeClass (before + start) set (cursor.within before after) =
      .ok (item, next.within before after) := by
  unfold closeClass at h ⊢
  split at h
  · simp at h
  · next hmember =>
    obtain ⟨rfl, rfl⟩ := Prod.mk.inj (Except.ok.inj h)
    exact if_neg hmember

theorem readClass_within {start : Nat} {rest : Bytes} {item : Item} {next : Cursor}
    (h : readClass start rest = .ok (item, next)) :
    readClass (before + start) (rest ++ after) = .ok (item, next.within before after) := by
  have hnegated : isNegated (rest ++ after) = isNegated rest := by
    cases rest with
    | nil =>
      simp only [readClass] at h
      split at h
      · simp at h
      · next hitems => exact absurd rfl (rest_ne_nil_of_readClassItems hitems)
    | cons b rest => rfl
  have hfirst : firstItem (before + start) (rest ++ after) =
      (firstItem start rest).within before after := by
    unfold firstItem
    rw [hnegated]
    split
    · next hnegated =>
      cases rest with
      | nil => exact absurd hnegated (by decide)
      | cons b rest => rfl
    · rfl
  unfold readClass at h ⊢
  rw [hnegated, hfirst]
  split at h
  · simp at h
  · next members next' hitems =>
    rw [readClassItems_within hitems]
    exact closeClass_within h

/-! ## Action blocks -/

/-- What is found one byte later is found now, if that byte is read in the same way. -/
theorem found_cons {n count : Nat} {now later : Option Nat} (b : UInt8) {rest : Bytes}
    (h : later = some n ∧ n < count + 1 + rest.length) (hnow : now = later) :
    now = some n ∧ n < count + (b :: rest).length := by
  refine ⟨hnow.trans h.1, ?_⟩
  rw [List.length_cons]
  omega

/-- An action block ends where it ended, inside the text. -/
theorem blockLength_append {state : BlockState} {depth count n : Nat} {bytes : Bytes}
    (h : blockLength state depth count bytes = some n) (after : Bytes) :
    blockLength state depth count (bytes ++ after) = some n ∧ n < count + bytes.length := by
  fun_induction blockLength state depth count bytes with
  | case1 => simp at h
  | case2 depth count rest ih => exact found_cons _ (ih h) rfl
  | case3 count rest =>
    obtain rfl := Option.some.inj h
    refine ⟨rfl, ?_⟩
    rw [List.length_cons]
    omega
  | case4 depth count rest hdepth _ ih => exact found_cons _ (ih h) (if_neg hdepth)
  | case5 depth count b rest hleft hright hquote ih =>
    refine found_cons _ (ih h) ?_
    rw [List.cons_append, blockLength, if_neg hleft, if_neg hright, if_pos hquote]
  | case6 depth count b rest hleft hright hquote ih =>
    refine found_cons _ (ih h) ?_
    rw [List.cons_append, blockLength, if_neg hleft, if_neg hright, if_neg hquote]
  | case7 delimiter depth count rest ih => exact found_cons _ (ih h) rfl
  | case8 depth count b rest hbackslash ih =>
    refine found_cons _ (ih h) ?_
    rw [List.cons_append, blockLength, if_neg hbackslash, if_pos rfl]
  | case9 delimiter depth count b rest hbackslash hne ih =>
    refine found_cons _ (ih h) ?_
    rw [List.cons_append, blockLength, if_neg hbackslash, if_neg hne]
  | case10 delimiter depth count b rest ih => exact found_cons _ (ih h) rfl

theorem readAction_within {start : Nat} {rest : Bytes} {item : Item} {next : Cursor}
    (h : readAction start rest = .ok (item, next)) :
    readAction (before + start) (rest ++ after) = .ok (item, next.within before after) := by
  unfold readAction at h
  split at h
  · simp at h
  · next n hlength =>
    obtain ⟨rfl, rfl⟩ := Prod.mk.inj (Except.ok.inj h)
    obtain ⟨hlength', hlt⟩ := blockLength_append hlength after
    rw [Nat.zero_add] at hlt
    unfold readAction
    simp only [hlength', Cursor.within, List.take_append_of_le_length (Nat.le_of_lt hlt),
      List.drop_append_of_le_length hlt]
    rw [← Nat.add_assoc, ← Nat.add_assoc]

/-! ## Repetitions -/

/-- A run of bytes ends where it ended, unless it goes on behind the end of the text. -/
theorem takeWhile_within {p : UInt8 → Bool} {bytes : Bytes}
    (hafter : bytes.dropWhile p = [] → ∀ b ∈ after.head?, p b = false) :
    (bytes ++ after).takeWhile p = bytes.takeWhile p ∧
      (bytes ++ after).dropWhile p = bytes.dropWhile p ++ after := by
  induction bytes with
  | nil =>
    cases after with
    | nil => exact ⟨rfl, rfl⟩
    | cons b after =>
      have hb : p b = false := hafter rfl b rfl
      simp [hb]
  | cons b bytes ih =>
    cases hb : p b with
    | false => simp [hb]
    | true =>
      rw [List.dropWhile_cons_of_pos hb] at hafter
      simp [hb, ih hafter]

theorem readBound_within {start : Nat} {cursor next : Cursor} {bound : Option Nat}
    (hafter : next.rest = [] → after = []) (h : readBound start cursor = .ok (bound, next))
    (before : Nat) :
    readBound (before + start) (cursor.within before after) =
      .ok (bound, next.within before after) := by
  obtain ⟨pos, bytes⟩ := cursor
  unfold readBound at h ⊢
  simp only at h
  have hrest : next.rest = bytes.dropWhile Ascii.isDigit := by
    split_ifs at h with hempty
    · obtain ⟨rfl, rfl⟩ := Prod.mk.inj (Except.ok.inj h)
      have happend := List.takeWhile_append_dropWhile (p := Ascii.isDigit) (l := bytes)
      rw [List.isEmpty_iff.mp hempty, List.nil_append] at happend
      exact happend.symm
    · obtain ⟨rfl, rfl⟩ := Prod.mk.inj (Except.ok.inj h)
      rfl
  have hdigit : bytes.dropWhile Ascii.isDigit = [] →
      ∀ b ∈ after.head?, Ascii.isDigit b = false := by
    intro hnil b hb
    rw [hafter (hrest.trans hnil)] at hb
    exact nomatch hb
  obtain ⟨htake, hdrop⟩ := takeWhile_within hdigit
  simp only [Cursor.within, htake, hdrop]
  split_ifs at h ⊢
  · obtain ⟨rfl, rfl⟩ := Prod.mk.inj (Except.ok.inj h)
    rfl
  · obtain ⟨rfl, rfl⟩ := Prod.mk.inj (Except.ok.inj h)
    rw [← Nat.add_assoc]

theorem readClosingBrace_within {start : Nat} {item item' : Item} {cursor next : Cursor}
    (h : readClosingBrace start item cursor = .ok (item', next)) :
    readClosingBrace (before + start) item (cursor.within before after) =
      .ok (item', next.within before after) := by
  obtain ⟨pos, bytes⟩ := cursor
  unfold readClosingBrace at h
  split at h
  · next hbrace =>
    obtain ⟨rfl, rfl⟩ := Prod.mk.inj (Except.ok.inj h)
    cases bytes with
    | nil => simp at hbrace
    | cons b rest =>
      exact if_pos hbrace
  · simp at h

/-- A repetition goes on to its brace. -/
theorem rest_ne_nil_of_readClosingBrace {start : Nat} {item item' : Item} {cursor next : Cursor}
    (h : readClosingBrace start item cursor = .ok (item', next)) : cursor.rest ≠ [] := by
  intro hrest
  rw [readClosingBrace, hrest] at h
  simp at h

theorem readRepetition_within {start : Nat} {rest : Bytes} {item : Item} {next : Cursor}
    (h : readRepetition start rest = .ok (item, next)) :
    readRepetition (before + start) (rest ++ after) = .ok (item, next.within before after) := by
  unfold readRepetition at h ⊢
  split at h
  · simp at h
  · next min cursor hmin =>
    obtain ⟨pos, bytes⟩ := cursor
    cases bytes with
    | nil => simp [readClosingBrace] at h
    | cons b bytes =>
      have hminWithin : readBound (before + start) ⟨before + (start + 1), rest ++ after⟩ =
          .ok (min, ⟨before + pos, b :: bytes ++ after⟩) := readBound_within (by simp) hmin before
      rw [← Nat.add_assoc] at hminWithin
      rw [hminWithin]
      split at h
      · next hcomma =>
        refine (if_pos hcomma).trans ?_
        split at h
        · simp at h
        · next max cursor' hmax =>
          have hmaxWithin : readBound (before + start) ⟨before + (pos + 1), bytes ++ after⟩ =
              .ok (max, cursor'.within before after) :=
            readBound_within (fun hnil => absurd hnil (rest_ne_nil_of_readClosingBrace h)) hmax before
          rw [← Nat.add_assoc] at hmaxWithin
          split
          · next herror => exact absurd (hmaxWithin.symm.trans herror) (by simp)
          · next hok =>
            obtain ⟨rfl, rfl⟩ := Prod.mk.inj (Except.ok.inj (hmaxWithin.symm.trans hok))
            exact readClosingBrace_within h
      · next hcomma => exact (if_neg hcomma).trans (readClosingBrace_within h)

/-! ## Items -/

/-- What may follow a text without changing how it is read: nothing that continues a name. -/
def Closes (after : Bytes) : Prop := ∀ b ∈ after.head?, Ascii.isWordByte b = false

theorem closes_nil : Closes [] := fun _ hb => nomatch hb

theorem closes_cons {b : UInt8} (hb : Ascii.isWordByte b = false) (rest : Bytes) :
    Closes (b :: rest) := by
  intro c hc
  obtain rfl := Option.some.inj hc
  exact hb

theorem closes_rightParen (rest : Bytes) : Closes (Ascii.rightParen :: rest) :=
  closes_cons (by decide) rest

theorem closes_blank {b : UInt8} (hb : Ascii.isBlank b = true) (rest : Bytes) :
    Closes (b :: rest) := by
  have hall : ∀ b : UInt8, Ascii.isBlank b = true → Ascii.isWordByte b = false := by
    decide +kernel
  exact closes_cons (hall b hb) rest

theorem startsBounds_append_of_ne_nil {bytes : Bytes} (hbytes : bytes ≠ []) (after : Bytes) :
    startsBounds (bytes ++ after) = startsBounds bytes := by
  cases bytes with
  | nil => exact absurd rfl hbytes
  | cons b rest => rfl

theorem readEscapeItem_within {pos : Nat} {rest : Bytes} {item : Item} {next : Cursor}
    (h : readEscapeItem pos rest = .ok (item, next)) :
    readEscapeItem (before + pos) (rest ++ after) = .ok (item, next.within before after) := by
  unfold readEscapeItem at h ⊢
  split at h
  · simp at h
  all_goals
    next hescape =>
    obtain ⟨rfl, rfl⟩ := Prod.mk.inj (Except.ok.inj h)
    rw [readEscape_within hescape]

theorem readQuotedItem_within {pos : Nat} {delimiter : UInt8} {rest : Bytes} {item : Item}
    {next : Cursor} (h : readQuotedItem pos delimiter rest = .ok (item, next)) :
    readQuotedItem (before + pos) delimiter (rest ++ after) =
      .ok (item, next.within before after) := by
  unfold readQuotedItem at h ⊢
  split at h
  · simp at h
  · next hquoted =>
    obtain ⟨rfl, rfl⟩ := Prod.mk.inj (Except.ok.inj h)
    have hwithin := readQuoted_within hquoted before after
    rw [Cursor.within, ← Nat.add_assoc] at hwithin
    rw [hwithin]

theorem readName_within {rest : Bytes}
    (hafter : rest.dropWhile Ascii.isWordByte = [] → Closes after) (pos : Nat) (b : UInt8) :
    readName (before + pos) b (rest ++ after) =
      ((readName pos b rest).1, (readName pos b rest).2.within before after) := by
  obtain ⟨htake, hdrop⟩ := takeWhile_within hafter
  simp only [readName, htake, hdrop, Cursor.within, ← Nat.add_assoc]

/-- **An item is read in the same way inside a longer text.** Only where the text ends with it does
it matter what follows. -/
theorem readItem_within {pos : Nat} {b : UInt8} {rest : Bytes} {item : Item} {next : Cursor}
    (hafter : next.rest = [] → Closes after) (h : readItem pos b rest = .ok (item, next)) :
    readItem (before + pos) b (rest ++ after) = .ok (item, next.within before after) := by
  unfold readItem at h ⊢
  split at h
  · obtain ⟨rfl, rfl⟩ := Prod.mk.inj (Except.ok.inj h)
    rfl
  · split_ifs at h with hbrace hbounds hbracket hbackslash hquote hletter hliteral
    · have hrest : rest ≠ [] := by
        rintro rfl
        exact absurd hbounds (by decide)
      rw [if_pos hbrace, startsBounds_append_of_ne_nil hrest, if_pos hbounds]
      exact readRepetition_within h
    · have hrest : rest ≠ [] := by
        rintro rfl
        exact nomatch h
      rw [if_pos hbrace, startsBounds_append_of_ne_nil hrest, if_neg hbounds]
      exact readAction_within h
    · rw [if_neg hbrace, if_pos hbracket]
      exact readClass_within h
    · rw [if_neg hbrace, if_neg hbracket, if_pos hbackslash]
      exact readEscapeItem_within h
    · rw [if_neg hbrace, if_neg hbracket, if_neg hbackslash, if_pos hquote]
      exact readQuotedItem_within h
    · rw [if_neg hbrace, if_neg hbracket, if_neg hbackslash, if_neg hquote, if_pos hletter]
      obtain ⟨rfl, rfl⟩ := Prod.mk.inj (Except.ok.inj h)
      exact congrArg Except.ok (readName_within hafter pos b)
    · rw [if_neg hbrace, if_neg hbracket, if_neg hbackslash, if_neg hquote, if_neg hletter,
        if_pos hliteral]
      obtain ⟨rfl, rfl⟩ := Prod.mk.inj (Except.ok.inj h)
      rfl

/-! ## Whole patterns -/

/-- An item as many bytes further on. -/
def moveItem (before : Nat) (entry : Item × Span) : Item × Span :=
  (entry.1, entry.2.move before)

theorem map_moveItem_zero (items : List (Item × Span)) : items.map (moveItem 0) = items := by
  have hzero : moveItem 0 = id := by
    funext entry
    simp [moveItem, Span.move]
  rw [hzero, List.map_id]

/-- A reader moves on by as many bytes as it takes. -/
theorem pos_add_length_of_readItem {pos : Nat} {b : UInt8} {rest : Bytes} {item : Item}
    {next : Cursor} (h : readItem pos b rest = .ok (item, next)) :
    next.pos + next.rest.length = pos + (b :: rest).length := by
  obtain ⟨u, hu⟩ := reads_readItem h
  rw [show b :: rest = u ++ next.rest from hu.rest, List.length_append,
    show next.pos = pos + u.length from hu.pos, Nat.add_assoc]

/-- An item has at least one byte. -/
theorem pos_lt_of_readItem {pos : Nat} {b : UInt8} {rest : Bytes} {item : Item} {next : Cursor}
    (h : readItem pos b rest = .ok (item, next)) : pos < next.pos := by
  have hrest := readItem_rest h
  have hpos := pos_add_length_of_readItem h
  rw [List.length_cons] at hpos
  omega

/-- **A pattern is read in the same way inside a longer text.** -/
theorem Lexed.within (hafter : Closes after) {cursor : Cursor} {items items' : List (Item × Span)}
    (h : Lexed cursor items)
    (hrest : Lexed ⟨before + (cursor.pos + cursor.rest.length), after⟩ items') :
    Lexed (cursor.within before after) (items.map (moveItem before) ++ items') := by
  induction h with
  | ended pos => exact hrest
  | @blank pos b rest items hb _ ih =>
    refine .blank hb (ih ?_)
    have hpos : pos + 1 + rest.length = pos + (b :: rest).length := by
      rw [List.length_cons]
      omega
    rwa [hpos]
  | @item pos b rest item next items hitem _ ih =>
    refine .item (readItem_within (fun _ => hafter) hitem) (ih ?_)
    rwa [pos_add_length_of_readItem hitem]

theorem isBlank_eq_false_of_readItem {pos : Nat} {b : UInt8} {rest : Bytes} {item : Item}
    {next : Cursor} (h : readItem pos b rest = .ok (item, next)) : Ascii.isBlank b = false := by
  by_contra hblank
  simp only [Ascii.isBlank, Bool.not_eq_false, Bool.or_eq_true, beq_iff_eq] at hblank
  have hnone : ∀ c ∈ [Ascii.space, Ascii.tab, Ascii.carriageReturn, Ascii.newline],
      readItem pos c rest ≠ .ok (item, next) := by
    intro c hc
    fin_cases hc
    all_goals exact fun hok => nomatch hok
  rcases hblank with ((rfl | rfl) | rfl) | rfl
  all_goals exact hnone _ (by decide) h

section Steps

variable {pos : Nat} {b : UInt8} {rest : Bytes}

theorem lexFrom_of_isBlank (hb : Ascii.isBlank b = true) (read : List (Item × Span)) :
    lexFrom ⟨pos, b :: rest⟩ read = lexFrom ⟨pos + 1, rest⟩ read := by
  rw [lexFrom]
  exact if_pos hb

theorem lexFrom_of_readItem {item : Item} {next : Cursor}
    (h : readItem pos b rest = .ok (item, next)) (read : List (Item × Span)) :
    lexFrom ⟨pos, b :: rest⟩ read = lexFrom next ((item, ⟨pos, next.pos⟩) :: read) := by
  rw [lexFrom]
  simp only [isBlank_eq_false_of_readItem h, Bool.false_eq_true, if_false]
  split
  · next herror => exact absurd (h.symm.trans herror) (by simp)
  · next hok =>
    obtain ⟨rfl, rfl⟩ := Prod.mk.inj (Except.ok.inj (h.symm.trans hok))
    rfl

theorem lexFrom_of_error {e : Error} (hb : Ascii.isBlank b = false)
    (h : readItem pos b rest = .error e) (read : List (Item × Span)) :
    lexFrom ⟨pos, b :: rest⟩ read = ⟨read.reverse, some e⟩ := by
  rw [lexFrom]
  simp only [hb, Bool.false_eq_true, if_false]
  split
  · next herror => rw [Except.error.inj (h.symm.trans herror)]
  · next hok => exact absurd (h.symm.trans hok) (by simp)

end Steps

theorem Lexed.lexFrom_eq {cursor : Cursor} {items : List (Item × Span)} (h : Lexed cursor items)
    (read : List (Item × Span)) : lexFrom cursor read = ⟨read.reverse ++ items, none⟩ := by
  induction h generalizing read with
  | ended pos => rw [lexFrom, List.append_nil]
  | blank hb _ ih => rw [lexFrom_of_isBlank hb, ih]
  | item hitem _ ih =>
    rw [lexFrom_of_readItem hitem, ih, List.reverse_cons, List.append_assoc, List.singleton_append]

theorem Lexed.lex_eq {pattern : Bytes} {items : List (Item × Span)} (h : Lexed ⟨0, pattern⟩ items) :
    lex pattern = ⟨items, none⟩ :=
  h.lexFrom_eq []

end Pattern

end ActionRegex
