import ActionRegex.Proofs.Pattern.Repetitions
import ActionRegex.Proofs.Pattern.Within.Groups

/-!
# The texts of repetitions

A repetition is written as one of three characters or as bounds in braces (`RepetitionText`). It is
read as one item, wherever it stands (`RepetitionText.lexed`), and what stands before it is read as
it is read alone (`Lexed.insert`): a text and the same text with a blank in the place of a
repetition have the same items otherwise.
-/

namespace ActionRegex.Pattern

/-! ## Texts -/

/-- The value of a bound that may be missing. -/
def boundOf (digits : Bytes) : Option Nat :=
  if digits = [] then none else some (Ascii.decimal digits)

/-- The digits of a bound. -/
def Digits (digits : Bytes) : Prop := ∀ d ∈ digits, Ascii.isDigit d = true

/-- The texts of repetitions with their bounds: a character, a number in braces, or two bounds in
braces of which either may be missing. -/
inductive RepetitionText : Bytes → Nat → Option Nat → Prop
  | star : RepetitionText [Ascii.star] 0 none
  | plus : RepetitionText [Ascii.plus] 1 none
  | question : RepetitionText [Ascii.question] 0 (some 1)
  | number {digits : Bytes} (hne : digits ≠ []) (hdigits : Digits digits) :
    RepetitionText (Ascii.leftBrace :: (digits ++ [Ascii.rightBrace]))
      (Ascii.decimal digits) (some (Ascii.decimal digits))
  | bounds {least most : Bytes} (hleast : Digits least) (hmost : Digits most) :
    RepetitionText (Ascii.leftBrace :: (least ++ Ascii.comma :: (most ++ [Ascii.rightBrace])))
      (Ascii.decimal least) (boundOf most)

theorem RepetitionText.closes {text : Bytes} {min : Nat} {max : Option Nat}
    (h : RepetitionText text min max) (rest : Bytes) : Closes (text ++ rest) := by
  cases h with
  | star | plus | question | number | bounds => exact closes_cons (by decide) _

/-! ## Reading bounds -/

theorem takeWhile_digits {digits rest : Bytes} (hdigits : Digits digits)
    (hrest : ∀ b ∈ rest.head?, Ascii.isDigit b = false) :
    (digits ++ rest).takeWhile Ascii.isDigit = digits ∧
      (digits ++ rest).dropWhile Ascii.isDigit = rest := by
  have hstop : digits.dropWhile Ascii.isDigit = [] →
      ∀ b ∈ rest.head?, Ascii.isDigit b = false := fun _ => hrest
  obtain ⟨htake, hdrop⟩ := takeWhile_within hstop
  rw [htake, hdrop, List.takeWhile_eq_self_iff.mpr hdigits, List.dropWhile_eq_nil_iff.mpr hdigits]
  exact ⟨rfl, rfl⟩

theorem isDigit_head {b : UInt8} {rest : Bytes} (hb : Ascii.isDigit b = false) :
    ∀ c ∈ (b :: rest).head?, Ascii.isDigit c = false := by
  intro c hc
  obtain rfl := Option.some.inj hc
  exact hb

theorem readBound_digits {start pos : Nat} {digits rest : Bytes} (hdigits : Digits digits)
    (hrest : ∀ b ∈ rest.head?, Ascii.isDigit b = false)
    (hle : ∀ n, boundOf digits = some n → n ≤ maxBound) :
    readBound start ⟨pos, digits ++ rest⟩ =
      .ok (boundOf digits, ⟨pos + digits.length, rest⟩) := by
  obtain ⟨htake, hdrop⟩ := takeWhile_digits hdigits hrest
  simp only [readBound, htake, hdrop]
  unfold boundOf at hle ⊢
  by_cases hnil : digits = []
  · subst hnil
    rfl
  · rw [if_neg hnil] at hle ⊢
    rw [if_neg (by simpa using hnil), if_pos (hle _ rfl)]

theorem le_of_readBound {start pos : Nat} {digits rest : Bytes} {result : Option Nat × Cursor}
    (hdigits : Digits digits) (hrest : ∀ b ∈ rest.head?, Ascii.isDigit b = false)
    (h : readBound start ⟨pos, digits ++ rest⟩ = .ok result) : Ascii.decimal digits ≤ maxBound := by
  obtain ⟨htake, -⟩ := takeWhile_digits hdigits hrest
  simp only [readBound, htake] at h
  split_ifs at h with hempty hle
  · rw [List.isEmpty_iff.mp hempty]
    decide
  · exact hle

/-- What is read as a repetition starts with a bound, and has another one behind a comma. -/
theorem exists_of_readRepetition {pos : Nat} {rest : Bytes} {result : Item × Cursor}
    (h : readRepetition pos rest = .ok result) :
    ∃ bound next, readBound pos ⟨pos + 1, rest⟩ = .ok (bound, next) ∧
      (next.rest.head? = some Ascii.comma →
        ∃ result', readBound pos ⟨next.pos + 1, next.rest.tail⟩ = .ok result') := by
  unfold readRepetition at h
  split at h
  · exact nomatch h
  · next bound next hfirst =>
    refine ⟨bound, next, hfirst, fun hcomma => ?_⟩
    rw [if_pos hcomma] at h
    split at h
    · exact nomatch h
    · next hsecond => exact ⟨_, hsecond⟩

/-- A missing bound counts as zero. -/
theorem getD_boundOf (digits : Bytes) : (boundOf digits).getD 0 = Ascii.decimal digits := by
  unfold boundOf
  split
  · next hnil =>
    subst hnil
    rfl
  · rfl

theorem readClosingBrace_rightBrace (start pos : Nat) (item : Item) (rest : Bytes) :
    readClosingBrace start item ⟨pos, Ascii.rightBrace :: rest⟩ = .ok (item, ⟨pos + 1, rest⟩) := rfl

theorem Stream.ValidBounds.le_maxBound {min : Nat} {max : Option Nat}
    (h : Stream.ValidBounds min max) :
    min ≤ maxBound ∧ ∀ n, max = some n → n ≤ maxBound := by
  have hmin := h.min_le
  refine ⟨by simp only [maxBound, maxRepetition] at hmin ⊢; omega, fun n hn => ?_⟩
  have hmax := (h.max_le n hn).2
  simp only [maxBound, maxRepetition] at hmax ⊢
  omega

theorem readRepetition_number {pos : Nat} {digits rest : Bytes} (hne : digits ≠ [])
    (hdigits : Digits digits) (hle : Ascii.decimal digits ≤ maxBound) :
    readRepetition pos (digits ++ Ascii.rightBrace :: rest) =
      .ok (.repetition (Ascii.decimal digits) (some (Ascii.decimal digits)),
        ⟨pos + 1 + digits.length + 1, rest⟩) := by
  have hbound : boundOf digits = some (Ascii.decimal digits) := if_neg hne
  have hread : readBound pos ⟨pos + 1, digits ++ Ascii.rightBrace :: rest⟩ =
      .ok (boundOf digits, ⟨pos + 1 + digits.length, Ascii.rightBrace :: rest⟩) :=
    readBound_digits hdigits (isDigit_head rfl) fun n hn => Option.some.inj (hbound ▸ hn) ▸ hle
  have hcomma : (Ascii.rightBrace :: rest).head? ≠ some Ascii.comma := by
    simp [Ascii.rightBrace, Ascii.comma]
  rw [readRepetition, hread]
  simp only [if_neg hcomma]
  rw [readClosingBrace_rightBrace, getD_boundOf]

theorem readRepetition_bounds {pos : Nat} {least most rest : Bytes} (hleast : Digits least)
    (hmost : Digits most) (hle : Ascii.decimal least ≤ maxBound)
    (hle' : ∀ n, boundOf most = some n → n ≤ maxBound) :
    readRepetition pos (least ++ Ascii.comma :: (most ++ Ascii.rightBrace :: rest)) =
      .ok (.repetition (Ascii.decimal least) (boundOf most),
        ⟨pos + 1 + least.length + 1 + most.length + 1, rest⟩) := by
  have hfirst : readBound pos ⟨pos + 1, least ++ Ascii.comma :: (most ++ Ascii.rightBrace :: rest)⟩ =
      .ok (boundOf least,
        ⟨pos + 1 + least.length, Ascii.comma :: (most ++ Ascii.rightBrace :: rest)⟩) := by
    refine readBound_digits hleast (isDigit_head rfl) fun n hn => ?_
    rw [← getD_boundOf, hn] at hle
    exact hle
  have hsecond : readBound pos ⟨pos + 1 + least.length + 1, most ++ Ascii.rightBrace :: rest⟩ =
      .ok (boundOf most, ⟨pos + 1 + least.length + 1 + most.length, Ascii.rightBrace :: rest⟩) :=
    readBound_digits hmost (isDigit_head rfl) hle'
  rw [readRepetition, hfirst]
  simp only [List.head?_cons, if_true, List.tail_cons]
  rw [hsecond]
  simp only
  rw [readClosingBrace_rightBrace, getD_boundOf]

/-! ## Reading repetitions -/

theorem readItem_leftBrace {rest : Bytes} (h : startsBounds rest = true) (pos : Nat) :
    readItem pos Ascii.leftBrace rest = readRepetition pos rest := by
  have hpunctuation : ofPunctuation? Ascii.leftBrace = none := by decide
  rw [readItem, hpunctuation]
  exact (if_pos rfl).trans (if_pos h)

theorem startsBounds_append {digits rest : Bytes} (hdigits : Digits digits)
    (h : digits = [] → startsBounds rest = true) : startsBounds (digits ++ rest) = true := by
  cases digits with
  | nil => exact h rfl
  | cons d digits => simp [startsBounds, hdigits d List.mem_cons_self]

/-- A repetition whose bounds are numbers that can be read is read as one item. -/
theorem RepetitionText.lexed_of_le {text rest : Bytes} {min pos : Nat} {max : Option Nat}
    {items : List (Item × Span)} (h : RepetitionText text min max) (hmin : min ≤ maxBound)
    (hmax : ∀ n, max = some n → n ≤ maxBound) (hrest : Lexed ⟨pos + text.length, rest⟩ items) :
    Lexed ⟨pos, text ++ rest⟩
      ((.repetition min max, ⟨pos, pos + text.length⟩) :: items) := by
  cases h with
  | star | plus | question => exact .punctuation rfl hrest
  | @number digits hne hdigits =>
    have hlength : pos + (Ascii.leftBrace :: (digits ++ [Ascii.rightBrace])).length =
        pos + 1 + digits.length + 1 := by
      simp only [List.length_cons, List.length_append, List.length_nil]
      omega
    have hbounds : startsBounds (digits ++ Ascii.rightBrace :: rest) = true :=
      startsBounds_append hdigits fun hnil => absurd hnil hne
    have hread := readItem_leftBrace hbounds pos
    rw [readRepetition_number hne hdigits hmin, ← hlength] at hread
    have hitem := Lexed.item hread hrest
    simpa using hitem
  | @bounds least most hleast hmost =>
    have hlength : pos + (Ascii.leftBrace ::
        (least ++ Ascii.comma :: (most ++ [Ascii.rightBrace]))).length =
        pos + 1 + least.length + 1 + most.length + 1 := by
      simp only [List.length_cons, List.length_append, List.length_nil]
      omega
    have hbounds : startsBounds (least ++ Ascii.comma :: (most ++ Ascii.rightBrace :: rest)) = true :=
      startsBounds_append hleast fun _ => rfl
    have hread := readItem_leftBrace hbounds pos
    rw [readRepetition_bounds hleast hmost hmin hmax, ← hlength] at hread
    have hitem := Lexed.item hread hrest
    simpa using hitem

/-- **A repetition is read as one item.** -/
theorem RepetitionText.lexed {text rest : Bytes} {min pos : Nat} {max : Option Nat}
    {items : List (Item × Span)} (h : RepetitionText text min max) (hvalid : Stream.ValidBounds min max)
    (hrest : Lexed ⟨pos + text.length, rest⟩ items) :
    Lexed ⟨pos, text ++ rest⟩
      ((.repetition min max, ⟨pos, pos + text.length⟩) :: items) :=
  h.lexed_of_le hvalid.le_maxBound.1 hvalid.le_maxBound.2 hrest

theorem Lexed.exists_readRepetition {pos : Nat} {rest : Bytes} {items : List (Item × Span)}
    (h : Lexed ⟨pos, Ascii.leftBrace :: rest⟩ items) (hbounds : startsBounds rest = true) :
    ∃ result, readRepetition pos rest = .ok result := by
  cases h with
  | blank hb => exact absurd hb (by decide)
  | item hread => exact ⟨_, (readItem_leftBrace hbounds pos).symm.trans hread⟩

/-- The bounds of a repetition that is read are not too large to be read. -/
theorem RepetitionText.le_maxBound_of_lexed {text : Bytes} {min pos : Nat} {max : Option Nat}
    {items : List (Item × Span)} (h : RepetitionText text min max) (hlexed : Lexed ⟨pos, text⟩ items) :
    min ≤ maxBound ∧ ∀ n, max = some n → n ≤ maxBound := by
  cases h with
  | star | plus => exact ⟨by decide, by simp⟩
  | question => exact ⟨by decide, by simp [maxBound]⟩
  | @number digits hne hdigits =>
    obtain ⟨result, hread⟩ := hlexed.exists_readRepetition
      (startsBounds_append hdigits fun hnil => absurd hnil hne)
    obtain ⟨bound, next, hfirst, -⟩ := exists_of_readRepetition hread
    have hle := le_of_readBound hdigits (isDigit_head rfl) hfirst
    exact ⟨hle, fun n hn => Option.some.inj hn ▸ hle⟩
  | @bounds least most hleast hmost =>
    obtain ⟨result, hread⟩ := hlexed.exists_readRepetition
      (startsBounds_append hleast fun _ => rfl)
    obtain ⟨bound, next, hfirst, hsecond⟩ := exists_of_readRepetition hread
    have hmin := le_of_readBound hleast (isDigit_head rfl) hfirst
    have hdigits : readBound pos
        ⟨pos + 1, least ++ Ascii.comma :: (most ++ [Ascii.rightBrace])⟩ =
        .ok (boundOf least,
          ⟨pos + 1 + least.length, Ascii.comma :: (most ++ [Ascii.rightBrace])⟩) := by
      refine readBound_digits hleast (isDigit_head rfl) fun n hn => ?_
      rw [← getD_boundOf, hn] at hmin
      exact hmin
    obtain ⟨-, rfl⟩ := Prod.mk.inj (Except.ok.inj (hfirst.symm.trans hdigits))
    obtain ⟨result', hlast⟩ := hsecond rfl
    have hmax := le_of_readBound hmost (isDigit_head rfl) hlast
    refine ⟨hmin, fun n hn => ?_⟩
    rw [← getD_boundOf, hn] at hmax
    exact hmax

/-- **A repetition that is read at the end of a text is the only item there.** -/
theorem RepetitionText.eq_of_lexed {text : Bytes} {min pos : Nat} {max : Option Nat}
    {items : List (Item × Span)} (h : RepetitionText text min max) (hlexed : Lexed ⟨pos, text⟩ items) :
    items = [(.repetition min max, ⟨pos, pos + text.length⟩)] := by
  obtain ⟨hmin, hmax⟩ := h.le_maxBound_of_lexed hlexed
  have honly := h.lexed_of_le hmin hmax (.ended (pos + text.length))
  rw [List.append_nil] at honly
  exact (Reading.mk.inj ((hlexed.lexFrom_eq []).symm.trans (honly.lexFrom_eq []))).1

/-- No byte of a repetition closes a parenthesis or starts a name. -/
theorem RepetitionText.of_mem {text : Bytes} {min : Nat} {max : Option Nat}
    (h : RepetitionText text min max) :
    ∀ b ∈ text, b ≠ Ascii.rightParen ∧ Ascii.isLetter b = false := by
  have hdigit : ∀ b : UInt8, Ascii.isDigit b = true →
      b ≠ Ascii.rightParen ∧ Ascii.isLetter b = false := by decide +kernel
  have hpunctuation : ∀ b ∈ [Ascii.star, Ascii.plus, Ascii.question, Ascii.leftBrace, Ascii.comma,
      Ascii.rightBrace], b ≠ Ascii.rightParen ∧ Ascii.isLetter b = false := by decide +kernel
  intro b hb
  cases h with
  | star | plus | question => exact hpunctuation b (by simp_all)
  | @number digits _ hdigits =>
    simp only [List.mem_cons, List.mem_append, List.not_mem_nil, or_false] at hb
    rcases hb with rfl | hb | rfl
    · exact hpunctuation _ (by decide)
    · exact hdigit b (hdigits b hb)
    · exact hpunctuation _ (by decide)
  | @bounds least most hleast hmost =>
    simp only [List.mem_cons, List.mem_append, List.not_mem_nil, or_false] at hb
    rcases hb with rfl | hb | rfl | hb | rfl
    · exact hpunctuation _ (by decide)
    · exact hdigit b (hleast b hb)
    · exact hpunctuation _ (by decide)
    · exact hdigit b (hmost b hb)
    · exact hpunctuation _ (by decide)

/-! ## Repetitions inside a text -/

/-- **What stands before a text that continues nothing is read as it is alone.** -/
theorem Lexed.exists_of_within {before : Nat} {after : Bytes} (hafter : Closes after)
    {cursor : Cursor} {items all : List (Item × Span)} (h : Lexed cursor items)
    (hall : Lexed (cursor.within before after) all) :
    ∃ items', Lexed ⟨before + (cursor.pos + cursor.rest.length), after⟩ items' ∧
      all = items.map (moveItem before) ++ items' := by
  induction h generalizing all with
  | ended pos => exact ⟨all, hall, rfl⟩
  | @blank pos b rest items hb _ ih =>
    cases hall with
    | blank _ hall =>
      obtain ⟨items', hrest, rfl⟩ := ih hall
      refine ⟨items', ?_, rfl⟩
      rw [List.length_cons, Nat.add_comm rest.length, ← Nat.add_assoc pos]
      exact hrest
    | item hitem => exact absurd hb (by simp [isBlank_eq_false_of_readItem hitem])
  | @item pos b rest item next items hitem _ ih =>
    have hwithin : readItem (before + pos) b (rest ++ after) = .ok (item, next.within before after) :=
      readItem_within (fun _ => hafter) hitem
    cases hall with
    | blank hb => exact absurd hb (by simp [isBlank_eq_false_of_readItem hitem])
    | item hitem' hall =>
      obtain ⟨rfl, rfl⟩ := Prod.mk.inj (Except.ok.inj (hwithin.symm.trans hitem'))
      obtain ⟨items', hrest, rfl⟩ := ih hall
      refine ⟨items', ?_, rfl⟩
      rwa [← pos_add_length_of_readItem hitem]

/-- A text with a blank behind its first part: the items of the part and those of the rest. -/
theorem Lexed.exists_of_blank {front post : Bytes} {b : UInt8} (hb : Ascii.isBlank b = true)
    {items all : List (Item × Span)} (hfront : Lexed ⟨0, front⟩ items)
    (h : Lexed ⟨0, front ++ b :: post⟩ all) :
    ∃ items', Lexed ⟨front.length + 1, post⟩ items' ∧ all = items ++ items' := by
  obtain ⟨items', hrest, hall⟩ := hfront.exists_of_within (closes_blank hb post)
    (show Lexed (Cursor.within 0 (b :: post) ⟨0, front⟩) all from h)
  rw [map_moveItem_zero] at hall
  simp only [Nat.zero_add] at hrest
  cases hrest with
  | blank _ hrest => exact ⟨items', hrest, hall⟩
  | item hitem => exact absurd hb (by simp [isBlank_eq_false_of_readItem hitem])

/-- **A text with a repetition behind its first part**: the repetition is one more item. -/
theorem RepetitionText.exists_lexed_insert {text front post : Bytes} {min : Nat} {max : Option Nat}
    {items items' : List (Item × Span)} (h : RepetitionText text min max)
    (hvalid : Stream.ValidBounds min max) (hfront : Lexed ⟨0, front⟩ items)
    (hpost : Lexed ⟨front.length + 1, post⟩ items') :
    ∃ span k, Lexed ⟨0, front ++ (text ++ post)⟩
      (items ++ (.repetition min max, span) :: items'.map (moveItem k)) := by
  obtain ⟨k, hk⟩ : ∃ k, text.length = k + 1 := by
    cases h with
    | star | plus | question | number | bounds => exact ⟨_, rfl⟩
  have hmoved : Lexed ⟨front.length + text.length, post⟩ (items'.map (moveItem k)) := by
    have hend : Lexed ⟨k + (front.length + 1 + post.length), []⟩ [] := .ended _
    have hwithin := hpost.within closes_nil hend
    rw [List.append_nil, Cursor.within, List.append_nil] at hwithin
    rwa [hk, show front.length + (k + 1) = k + (front.length + 1) by omega]
  have hrepetition : Lexed ⟨0 + (0 + front.length), text ++ post⟩
      ((.repetition min max, ⟨front.length, front.length + text.length⟩) ::
        items'.map (moveItem k)) := by
    rw [Nat.zero_add, Nat.zero_add]
    exact h.lexed hvalid hmoved
  have hall := hfront.within (h.closes post) hrepetition
  rw [map_moveItem_zero] at hall
  exact ⟨_, k, hall⟩

end ActionRegex.Pattern
