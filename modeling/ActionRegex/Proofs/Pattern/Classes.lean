import ActionRegex.Proofs.ByteSet
import ActionRegex.Proofs.Pattern.Parsing
import ActionRegex.Proofs.Pattern.Scanning
import ActionRegex.Proofs.Pattern.Sentences

/-!
# Classes mean what they spell

A class is spelled as a list of items: bytes in hexadecimal, ranges of them, escapes for sets and
the dot. Each item has a set of bytes, said here without the bitmaps that the reader uses. The
reader takes the items apart one by one (`readClassItem_text`), joins their sets
(`readClassItems_text`) and stops at the first range that ends before it starts. So a class has the
union of its items, or what is outside of it, in whatever order the items come and however often
(`parse_class`).
-/

namespace ActionRegex.Pattern

/-! ## Spelled bytes -/

/-- A hexadecimal digit of either case. -/
structure HexDigit where
  value : Fin 16
  upper : Bool
  deriving DecidableEq

/-- The digit as it is written. -/
def HexDigit.char (d : HexDigit) : UInt8 :=
  if d.value < 10 then 0x30 + UInt8.ofNat d.value
  else if d.upper then 0x41 + (UInt8.ofNat d.value - 10)
  else 0x61 + (UInt8.ofNat d.value - 10)

theorem HexDigit.hexValue?_char (d : HexDigit) :
    Ascii.hexValue? d.char = some (UInt8.ofNat d.value) := by
  have h : ∀ value : Fin 16, ∀ upper : Bool,
      Ascii.hexValue? (HexDigit.char ⟨value, upper⟩) = some (UInt8.ofNat value) := by decide
  exact h d.value d.upper

/-- A byte written as `\xHH`. -/
structure HexByte where
  high : HexDigit
  low : HexDigit
  deriving DecidableEq

namespace HexByte

def value (x : HexByte) : UInt8 := UInt8.ofNat (16 * x.high.value + x.low.value)

/-- What follows the backslash. -/
def tail (x : HexByte) : Bytes := [Ascii.ofChar 'x', x.high.char, x.low.char]

def text (x : HexByte) : Bytes := Ascii.backslash :: x.tail

theorem readEscapedByte_tail (x : HexByte) (start : Nat) (rest : Bytes) :
    readEscapedByte start (x.tail ++ rest) = .ok (x.value, ⟨start + 4, rest⟩) := by
  have hvalue : 16 * UInt8.ofNat x.high.value + UInt8.ofNat x.low.value = x.value := by
    rw [value, UInt8.ofNat_add, UInt8.ofNat_mul]
    rfl
  unfold readEscapedByte
  dsimp only [tail, List.cons_append, List.nil_append]
  rw [if_neg (by decide), if_neg (by decide), if_neg (by decide), if_neg (by decide),
    if_neg (by decide), if_pos rfl, x.high.hexValue?_char, x.low.hexValue?_char]
  simp only [hvalue]

theorem readEscape_tail (x : HexByte) (start : Nat) (rest : Bytes) :
    readEscape start (x.tail ++ rest) = .ok (.inl x.value, ⟨start + 4, rest⟩) := by
  have hset : (x.tail ++ rest).head?.bind ByteSet.ofEscape? = none := rfl
  rw [readEscape, hset, readEscapedByte_tail]

end HexByte

/-! ## Spelled items -/

/-- The sets that escapes stand for. -/
inductive Shorthand where
  | word
  | space
  | digit
  deriving DecidableEq

namespace Shorthand

/-- The letter of the escape. In upper case it stands for the other bytes. -/
def letter (s : Shorthand) (negated : Bool) : UInt8 :=
  match s with
  | word => Ascii.ofChar (if negated then 'W' else 'w')
  | space => Ascii.ofChar (if negated then 'S' else 's')
  | digit => Ascii.ofChar (if negated then 'D' else 'd')

/-- The bytes of the escape in lower case: ASCII letters, digits and the underscore; space and tab;
digits. -/
def Has (b : UInt8) : Shorthand → Prop
  | word => Ascii.isLetter b = true ∨ Ascii.isDigit b = true ∨ b = Ascii.underscore
  | space => b = Ascii.space ∨ b = Ascii.tab
  | digit => Ascii.isDigit b = true

def set : Shorthand → ByteSet
  | word => .word
  | space => .space
  | digit => .digit

theorem ofEscape?_letter (s : Shorthand) (negated : Bool) : ByteSet.ofEscape? (s.letter negated) =
    some (if negated then s.set.complement else s.set) := by
  cases s with
  | word => cases negated <;> rfl
  | space => cases negated <;> rfl
  | digit => cases negated <;> rfl

theorem contains_set (s : Shorthand) (b : UInt8) : s.set.contains b = true ↔ s.Has b := by
  cases s with
  | word =>
    show ByteSet.word.contains b = true ↔ _ ∨ _ ∨ _
    rw [ByteSet.word, ByteSet.contains_insert, Bool.or_eq_true, decide_eq_true_eq,
      ByteSet.contains_union, Bool.or_eq_true, ByteSet.contains_union, Bool.or_eq_true,
      ByteSet.contains_range, ByteSet.contains_range, ByteSet.contains_range, eq_comm (b := b)]
    simp only [Ascii.isLetter, Ascii.isDigit, Bool.or_eq_true, Bool.and_eq_true, decide_eq_true_eq,
      or_assoc]
  | space =>
    show ByteSet.space.contains b = true ↔ _ ∨ _
    rw [ByteSet.space, ByteSet.contains_ofList]
    simp
  | digit =>
    show ByteSet.digit.contains b = true ↔ Ascii.isDigit b = true
    rw [ByteSet.digit, ByteSet.contains_range, Ascii.isDigit, Bool.and_eq_true, decide_eq_true_eq,
      decide_eq_true_eq]

end Shorthand

/-- An item of a class. -/
inductive ClassItem where
  | byte (x : HexByte)
  | range (first last : HexByte)
  | escape (s : Shorthand) (negated : Bool)
  | dot
  deriving DecidableEq

namespace ClassItem

def text : ClassItem → Bytes
  | byte x => x.text
  | range first last => first.text ++ Ascii.minus :: last.text
  | escape s negated => [Ascii.backslash, s.letter negated]
  | dot => [Ascii.dot]

/-- The bytes of an item. -/
def Has (b : UInt8) : ClassItem → Prop
  | byte x => b = x.value
  | range first last => first.value ≤ b ∧ b ≤ last.value
  | escape s negated => s.Has b ↔ negated = false
  | dot => b ≠ Ascii.newline

/-- A range whose last byte is below its first one. -/
def Backward : ClassItem → Prop
  | range first last => last.value < first.value
  | _ => False

instance (item : ClassItem) : Decidable item.Backward :=
  match item with
  | byte _ => isFalse id
  | range first last => inferInstanceAs (Decidable (last.value < first.value))
  | escape _ _ => isFalse id
  | dot => isFalse id

/-- The set that the reader makes of an item. -/
def set : ClassItem → ByteSet
  | byte x => .singleton x.value
  | range first last => .range first.value last.value
  | escape s negated => if negated then s.set.complement else s.set
  | dot => .dot

theorem contains_set (item : ClassItem) (b : UInt8) : item.set.contains b = true ↔ item.Has b := by
  cases item with
  | byte x =>
    show (ByteSet.singleton x.value).contains b = true ↔ b = x.value
    rw [ByteSet.contains_singleton, decide_eq_true_eq, eq_comm]
  | range first last => exact ByteSet.contains_range
  | escape s negated =>
    show (if negated then s.set.complement else s.set).contains b = true ↔ (s.Has b ↔ negated = false)
    rw [← s.contains_set b]
    cases negated with
    | false => simp
    | true => simp
  | dot =>
    show ByteSet.dot.contains b = true ↔ b ≠ Ascii.newline
    rw [ByteSet.dot, ByteSet.contains_complement, ByteSet.contains_singleton, Bool.not_eq_true',
      decide_eq_false_iff_not, ne_comm]

/-- An item starts with a backslash or is a dot. -/
theorem head?_text (item : ClassItem) (rest : Bytes) :
    (item.text ++ rest).head? = some Ascii.backslash ∨ (item.text ++ rest).head? = some Ascii.dot := by
  cases item with
  | byte x => exact .inl rfl
  | range first last => exact .inl rfl
  | escape s negated => exact .inl rfl
  | dot => exact .inr rfl

end ClassItem

/-! ## Reading items -/

/-- A byte that no minus follows is not the start of a range. -/
theorem readRange_of_head? {rest : Bytes} (h : rest.head? ≠ some Ascii.minus) (itemStart pos : Nat)
    (first : UInt8) :
    readRange itemStart first ⟨pos, rest⟩ = .ok (ByteSet.singleton first, ⟨pos, rest⟩) := by
  unfold readRange
  split
  · next minus last rest' hrest =>
    have hminus : ¬ (minus = Ascii.minus ∧ last ≠ Ascii.rightBracket) := by
      rintro ⟨rfl, -⟩
      rw [show rest = _ from hrest] at h
      exact h rfl
    rw [if_neg hminus]
  · rfl

theorem readRange_text (itemStart pos : Nat) (first : UInt8) (last : HexByte) (rest : Bytes) :
    readRange itemStart first ⟨pos, Ascii.minus :: (last.text ++ rest)⟩ =
      closeRange itemStart first last.value ⟨pos + 5, rest⟩ := by
  rw [HexByte.text, List.cons_append, readRange]
  simp only [ne_eq, show Ascii.backslash ≠ Ascii.rightBracket by decide, not_false_eq_true, and_self,
    if_true, last.readEscapedByte_tail]

/-- An escape that stands for a byte may be the start of a range. -/
theorem readClassItem_of_byte {pos : Nat} {rest : Bytes} {first : UInt8} {next : Cursor}
    (h : readEscape pos rest = .ok (.inl first, next)) (start : Nat) :
    readClassItem start ⟨pos, Ascii.backslash :: rest⟩ =
      (readRange pos first next).map (Prod.map some id) := by
  simp only [readClassItem]
  rw [if_neg (by decide), if_neg (by decide), if_pos trivial, h]

theorem readClassItem_of_set {pos : Nat} {rest : Bytes} {set : ByteSet} {next : Cursor}
    (h : readEscape pos rest = .ok (.inr set, next)) (start : Nat) :
    readClassItem start ⟨pos, Ascii.backslash :: rest⟩ = .ok (some set, next) := by
  simp only [readClassItem]
  rw [if_neg (by decide), if_neg (by decide), if_pos trivial, h]

theorem readClassItem_hexByte (start pos : Nat) (x : HexByte) (rest : Bytes) :
    readClassItem start ⟨pos, x.text ++ rest⟩ =
      (readRange pos x.value ⟨pos + 4, rest⟩).map (Prod.map some id) :=
  readClassItem_of_byte (x.readEscape_tail pos rest) start

theorem readClassItem_range (start pos : Nat) (first last : HexByte) (rest : Bytes) :
    readClassItem start ⟨pos, (ClassItem.range first last).text ++ rest⟩ =
      (closeRange pos first.value last.value ⟨pos + 9, rest⟩).map (Prod.map some id) := by
  rw [ClassItem.text, List.append_assoc, List.cons_append, readClassItem_hexByte, readRange_text]

/-- **An item is read as its set**, if it is not a backward range and no minus follows. -/
theorem readClassItem_text {item : ClassItem} (hitem : ¬ item.Backward) (start pos : Nat)
    {rest : Bytes} (hrest : rest.head? ≠ some Ascii.minus) :
    readClassItem start ⟨pos, item.text ++ rest⟩ =
      .ok (some item.set, ⟨pos + item.text.length, rest⟩) := by
  cases item with
  | byte x =>
    rw [ClassItem.text, readClassItem_hexByte, readRange_of_head? hrest]
    rfl
  | range first last =>
    have hle : ¬ last.value < first.value := hitem
    rw [readClassItem_range, closeRange, if_neg hle]
    rfl
  | escape s negated =>
    have hletter : ([s.letter negated] ++ rest).head?.bind ByteSet.ofEscape? =
        some (ClassItem.escape s negated).set := s.ofEscape?_letter negated
    have hescape : readEscape pos ([s.letter negated] ++ rest) =
        .ok (.inr (ClassItem.escape s negated).set, ⟨pos + 2, rest⟩) := by
      rw [readEscape, hletter]
      rfl
    exact readClassItem_of_set hescape start
  | dot => rfl

/-- A backward range is refused. -/
theorem readClassItem_backward {first last : HexByte} (h : last.value < first.value)
    (start pos : Nat) (rest : Bytes) :
    readClassItem start ⟨pos, (ClassItem.range first last).text ++ rest⟩ =
      .error ⟨.backwardRange first.value last.value, ⟨pos, pos + 9⟩⟩ := by
  rw [readClassItem_range, closeRange, if_pos h]
  rfl

/-- The text of items. -/
def itemsText (items : List ClassItem) : Bytes := items.flatMap ClassItem.text

/-- The items of a class start with a backslash, a dot or the bracket that closes the class. -/
theorem head?_itemsText_ne {c : UInt8} (hc : c ∉ [Ascii.backslash, Ascii.dot, Ascii.rightBracket])
    (items : List ClassItem) (rest : Bytes) :
    (itemsText items ++ Ascii.rightBracket :: rest).head? ≠ some c := by
  intro h
  cases items with
  | nil =>
    obtain rfl : Ascii.rightBracket = c := Option.some.inj h
    exact hc (by decide)
  | cons item items =>
    rw [itemsText, List.flatMap_cons, List.append_assoc] at h
    rcases item.head?_text (itemsText items ++ Ascii.rightBracket :: rest) with hhead | hhead
    · obtain rfl := Option.some.inj (hhead.symm.trans h)
      exact hc (by decide)
    · obtain rfl := Option.some.inj (hhead.symm.trans h)
      exact hc (by decide)

/-- The union of the sets of items and a set. -/
def joinSets (set : ByteSet) (items : List ClassItem) : ByteSet :=
  items.foldl (fun set item => set.union item.set) set

theorem contains_joinSets (set : ByteSet) (items : List ClassItem) (b : UInt8) :
    (joinSets set items).contains b = true ↔
      set.contains b = true ∨ ∃ item ∈ items, item.Has b := by
  induction items generalizing set with
  | nil => simp [joinSets]
  | cons item items ih =>
    rw [joinSets, List.foldl_cons, ← joinSets, ih, ByteSet.contains_union, Bool.or_eq_true,
      item.contains_set, or_assoc, List.exists_mem_cons_iff]

/-- Items in front of other items, none of them a backward range. -/
theorem readClassItems_append {before : List ClassItem} (hbefore : ∀ item ∈ before, ¬ item.Backward)
    (after : List ClassItem) (start pos : Nat) (rest : Bytes) (set : ByteSet) :
    readClassItems start ⟨pos, itemsText (before ++ after) ++ Ascii.rightBracket :: rest⟩ set =
      readClassItems start ⟨pos + (itemsText before).length,
        itemsText after ++ Ascii.rightBracket :: rest⟩ (joinSets set before) := by
  induction before generalizing pos set with
  | nil => rfl
  | cons item before ih =>
    obtain ⟨hitem, hbefore⟩ := List.forall_mem_cons.mp hbefore
    have hminus := head?_itemsText_ne (c := Ascii.minus) (by decide) (before ++ after) rest
    have htext : itemsText (item :: before ++ after) ++ Ascii.rightBracket :: rest =
        item.text ++ (itemsText (before ++ after) ++ Ascii.rightBracket :: rest) := by
      rw [List.cons_append, itemsText, List.flatMap_cons, List.append_assoc, ← itemsText]
    have hlength : (itemsText (item :: before)).length =
        item.text.length + (itemsText before).length := by
      rw [itemsText, List.flatMap_cons, List.length_append, ← itemsText]
    rw [htext, readClassItems_of_some (readClassItem_text hitem start pos hminus), ih hbefore,
      hlength, Nat.add_assoc, joinSets, joinSets, List.foldl_cons]

/-- **Items are read as the union of their sets.** -/
theorem readClassItems_text {items : List ClassItem} (hitems : ∀ item ∈ items, ¬ item.Backward)
    (start pos : Nat) :
    readClassItems start ⟨pos, itemsText items ++ [Ascii.rightBracket]⟩ ByteSet.empty =
      .ok (joinSets ByteSet.empty items, ⟨pos + (itemsText items).length + 1, []⟩) := by
  have happend := readClassItems_append hitems [] start pos [] ByteSet.empty
  rw [List.append_nil] at happend
  rw [happend]
  exact readClassItems_of_none rfl _

/-- The first backward range is the fault of a class. -/
theorem readClassItems_backward {before : List ClassItem}
    (hbefore : ∀ item ∈ before, ¬ item.Backward) {first last : HexByte}
    (h : last.value < first.value) (after : List ClassItem) (start pos : Nat) (set : ByteSet) :
    readClassItems start ⟨pos, itemsText (before ++ .range first last :: after) ++
      [Ascii.rightBracket]⟩ set = .error ⟨.backwardRange first.value last.value,
        ⟨pos + (itemsText before).length, pos + (itemsText before).length + 9⟩⟩ := by
  have htext : itemsText (.range first last :: after) ++ [Ascii.rightBracket] =
      (ClassItem.range first last).text ++ (itemsText after ++ [Ascii.rightBracket]) := by
    rw [itemsText, List.flatMap_cons, List.append_assoc, ← itemsText]
  rw [readClassItems_append hbefore, htext]
  exact readClassItems_of_error (readClassItem_backward h start _ _) _

/-! ## Whole classes -/

/-- A class as it is spelled. -/
structure Class where
  negated : Bool
  items : List ClassItem

namespace Class

/-- The bracket and the caret, if there is one. -/
def opening (c : Class) : Bytes :=
  Ascii.leftBracket :: if c.negated then [Ascii.caret] else []

def text (c : Class) : Bytes := c.opening ++ (itemsText c.items ++ [Ascii.rightBracket])

/-- The bytes of a class: those of its items, or with a caret all others. -/
def Has (c : Class) (b : UInt8) : Prop := (∃ item ∈ c.items, item.Has b) ↔ c.negated = false

/-- The set that the reader makes of a class. -/
def set (c : Class) : ByteSet :=
  if c.negated then (joinSets .empty c.items).complement else joinSets .empty c.items

theorem contains_set (c : Class) (b : UInt8) : c.set.contains b = true ↔ c.Has b := by
  have hjoin := contains_joinSets ByteSet.empty c.items b
  rw [ByteSet.contains_empty, Bool.false_eq_true, false_or] at hjoin
  rw [set, Has, ← hjoin]
  cases c.negated with
  | false => simp
  | true => simp

theorem isNegated_items (c : Class) :
    isNegated ((if c.negated then [Ascii.caret] else []) ++
      (itemsText c.items ++ [Ascii.rightBracket])) = c.negated := by
  cases c.negated with
  | true => rfl
  | false =>
    have hcaret := head?_itemsText_ne (c := Ascii.caret) (by decide) c.items []
    simpa [isNegated] using hcaret

/-- A class is read from its items. -/
theorem readItem_text (c : Class) :
    readItem 0 Ascii.leftBracket ((if c.negated then [Ascii.caret] else []) ++
      (itemsText c.items ++ [Ascii.rightBracket])) =
    (readClassItems 0 ⟨c.opening.length, itemsText c.items ++ [Ascii.rightBracket]⟩ .empty).bind
      fun (members, next) =>
        closeClass 0 (if c.negated then members.complement else members) next := by
  have hfirst : firstItem 0 ((if c.negated then [Ascii.caret] else []) ++
      (itemsText c.items ++ [Ascii.rightBracket])) =
        ⟨c.opening.length, itemsText c.items ++ [Ascii.rightBracket]⟩ := by
    rw [firstItem, c.isNegated_items, opening]
    cases c.negated with
    | true => rfl
    | false => rfl
  show readClass 0 _ = _
  rw [readClass, hfirst, c.isNegated_items]
  cases readClassItems 0 ⟨c.opening.length, itemsText c.items ++ [Ascii.rightBracket]⟩ .empty with
  | error e => rfl
  | ok result => rfl

theorem length_text (c : Class) :
    c.text.length = c.opening.length + (itemsText c.items).length + 1 := by
  rw [text, List.length_append, List.length_append, List.length_singleton, Nat.add_assoc]

/-- The fault of an item ends the reading of a class. -/
theorem lex_text_of_error {c : Class} {e : Error}
    (h : readClassItems 0 ⟨c.opening.length, itemsText c.items ++ [Ascii.rightBracket]⟩ .empty =
      .error e) : lex c.text = ⟨[], some e⟩ := by
  have hread := c.readItem_text
  rw [h] at hread
  exact (Scans.refl _).lexFrom_eq (.failed rfl hread) []

/-- A class whose items can be read has the set of its items, and is refused if that is empty. -/
theorem lex_text {c : Class} (hitems : ∀ item ∈ c.items, ¬ item.Backward) :
    lex c.text = if c.set.isEmpty then ⟨[], some ⟨.emptyClass, ⟨0, c.text.length⟩⟩⟩
      else ⟨[(.oneOf c.set, ⟨0, c.text.length⟩)], none⟩ := by
  have hread := c.readItem_text
  rw [readClassItems_text hitems, ← c.length_text] at hread
  have hclose : readItem 0 Ascii.leftBracket ((if c.negated then [Ascii.caret] else []) ++
      (itemsText c.items ++ [Ascii.rightBracket])) = closeClass 0 c.set ⟨c.text.length, []⟩ := hread
  rw [closeClass] at hclose
  by_cases hempty : c.set.isEmpty = true
  · rw [if_pos hempty] at hclose ⊢
    exact (Scans.refl _).lexFrom_eq (.failed rfl hclose) []
  · rw [if_neg hempty] at hclose ⊢
    exact (Scans.item hclose (.refl _)).lexFrom_eq (.ended _) []

end Class

/-! ## Parsing -/

section Parsing

variable {macros : Macros} {pattern : Bytes} {registry : Registry}

theorem parse_of_lex_error {e : Error} (h : lex pattern = ⟨[], some e⟩) :
    parse macros pattern registry = (.error e, registry) := by
  rw [parse, tokenize, h]
  simp only
  rw [expand]

/-- A set that is all of a pattern becomes the alternation of its members. -/
theorem parse_of_lex_oneOf {set : ByteSet} {span : Span} (hset : set.toList ≠ [])
    (h : lex pattern = ⟨[(.oneOf set, span)], none⟩) :
    parse macros pattern registry = (.ok (Tree.anyOf set.toList), registry) := by
  have htree : treeOfStream (Stream.empty.emitSet span set) = .ok (Tree.anyOf set.toList) := by
    obtain ⟨joint, hjoint, hends⟩ := Stream.empty.exists_ends_emitSet span hset
    obtain rfl := hjoint.eq_of_endsTerm rfl
    obtain ⟨tokens, hforms, htokens⟩ := hends.sequence_of_term.alternatives_of_sequence
    refine treeOfStream_of_forms ?_
    rw [htokens, Stream.empty, List.append_nil, List.reverse_reverse]
    exact hforms
  have htokens : tokenize macros pattern registry =
      (.ok (Stream.empty.emitSet span set), registry) := by
    rw [tokenize, h, expand.eq_def]
    simp only [addItem, Option.getD_none]
    rw [expand]
  rw [parse, htokens]
  simp only [htree]

end Parsing

theorem isEmpty_of_contains {set : ByteSet} {b : UInt8} (h : set.contains b = true) :
    set.isEmpty = false := by
  by_contra hempty
  have hbits : set.bits = 0 := by simpa [ByteSet.isEmpty] using hempty
  rw [ByteSet.contains, hbits] at h
  simp at h

/-- The first of the items that are backward ranges. -/
theorem exists_first_backward {items : List ClassItem} (h : ∃ item ∈ items, item.Backward) :
    ∃ before first last after, items = before ++ .range first last :: after ∧
      (∀ item ∈ before, ¬ item.Backward) ∧ last.value < first.value := by
  have hfind : (items.find? fun item => decide item.Backward).isSome = true := by
    simpa [List.find?_isSome] using h
  obtain ⟨item, hitem⟩ := Option.isSome_iff_exists.mp hfind
  obtain ⟨hbackward, before, after, heq, hbefore⟩ := List.find?_eq_some_iff_append.mp hitem
  have hbackward : item.Backward := of_decide_eq_true hbackward
  cases item with
  | range first last =>
    exact ⟨before, first, last, after, heq, fun item hitem => by simpa using hbefore item hitem,
      hbackward⟩
  | byte x => exact absurd hbackward id
  | escape s negated => exact absurd hbackward id
  | dot => exact absurd hbackward id

/-- **A class means what it spells.** If one of its ranges ends before it starts, the first such
range is the fault. Otherwise a class without bytes is refused, and one with bytes becomes the
alternation of its bytes in ascending order. -/
theorem parse_class (macros : Macros) (c : Class) (registry : Registry) :
    ((∃ item ∈ c.items, item.Backward) → ∃ before first last after,
      c.items = before ++ .range first last :: after ∧ (∀ item ∈ before, ¬ item.Backward) ∧
      last.value < first.value ∧
      parse macros c.text registry = (.error ⟨.backwardRange first.value last.value,
        ⟨c.opening.length + (itemsText before).length,
          c.opening.length + (itemsText before).length + 9⟩⟩, registry)) ∧
    ((∀ item ∈ c.items, ¬ item.Backward) → (∀ b, ¬ c.Has b) →
      parse macros c.text registry = (.error ⟨.emptyClass, ⟨0, c.text.length⟩⟩, registry)) ∧
    ((∀ item ∈ c.items, ¬ item.Backward) → (∃ b, c.Has b) →
      ∃ members, members.Pairwise (· < ·) ∧ (∀ b, b ∈ members ↔ c.Has b) ∧
        parse macros c.text registry = (.ok (Tree.anyOf members), registry)) := by
  refine ⟨?_, ?_, ?_⟩
  · intro hbackward
    obtain ⟨before, first, last, after, heq, hbefore, hlt⟩ := exists_first_backward hbackward
    refine ⟨before, first, last, after, heq, hbefore, hlt, ?_⟩
    refine parse_of_lex_error (Class.lex_text_of_error ?_)
    rw [heq, readClassItems_backward hbefore hlt]
  · intro hitems hnone
    have hempty : c.set.isEmpty = true := by
      by_contra hempty
      obtain ⟨b, hb⟩ := exists_contains_of_isEmpty (Bool.eq_false_iff.mpr hempty)
      exact hnone b ((c.contains_set b).mp hb)
    have hlex := c.lex_text hitems
    rw [if_pos hempty] at hlex
    exact parse_of_lex_error hlex
  · rintro hitems ⟨b, hb⟩
    have hcontains := (c.contains_set b).mpr hb
    have hlex := Class.lex_text hitems
    rw [isEmpty_of_contains hcontains, if_neg Bool.false_ne_true] at hlex
    have hset : c.set.toList ≠ [] := List.ne_nil_of_mem (ByteSet.mem_toList.mpr hcontains)
    refine ⟨c.set.toList, c.set.pairwise_toList, ?_, parse_of_lex_oneOf hset hlex⟩
    intro b'
    rw [ByteSet.mem_toList, c.contains_set]

/-- The digits of a byte in lower case. -/
def HexByte.ofNat (high low : Fin 16) : HexByte := ⟨⟨high, false⟩, ⟨low, false⟩⟩

/-- `[\x62\d\x61-\x63\x61]`: overlapping items that are out of order. -/
def mixedClass : Class :=
  ⟨false, [.byte (.ofNat 6 2), .escape .digit false, .range (.ofNat 6 1) (.ofNat 6 3),
    .byte (.ofNat 6 1)]⟩

/-- `[^.\x0a]`: there is no other byte. -/
def fullClass : Class := ⟨true, [.dot, .byte (.ofNat 0 10)]⟩

/-- `[\x00\xff-\x00]`: a range from the highest byte to the lowest one. -/
def backwardClass : Class := ⟨false, [.byte (.ofNat 0 0), .range (.ofNat 15 15) (.ofNat 0 0)]⟩

/-- Each of the three things that can become of a class. -/
theorem parse_class_mixedClass :
    (∃ members, members.Pairwise (· < ·) ∧ (∀ b, b ∈ members ↔ mixedClass.Has b) ∧
      parse [] mixedClass.text .empty = (.ok (Tree.anyOf members), .empty)) ∧
    parse [] fullClass.text .empty = (.error ⟨.emptyClass, ⟨0, 8⟩⟩, .empty) ∧
    parse [] backwardClass.text .empty = (.error ⟨.backwardRange 255 0, ⟨5, 14⟩⟩, .empty) := by
  have hmixed : ∀ item ∈ mixedClass.items, ¬ item.Backward := by decide
  have hmember : mixedClass.Has 0x62 := by
    refine iff_of_true ⟨.byte (.ofNat 6 2), by decide, ?_⟩ rfl
    show (0x62 : UInt8) = HexByte.value (.ofNat 6 2)
    decide
  have hfull : ∀ item ∈ fullClass.items, ¬ item.Backward := by decide
  have hnone : ∀ b, ¬ fullClass.Has b := by
    intro b hb
    have hitem : ∃ item ∈ fullClass.items, item.Has b := by
      by_cases hnewline : b = Ascii.newline
      · exact ⟨.byte (.ofNat 0 10), by decide, hnewline⟩
      · exact ⟨.dot, by decide, hnewline⟩
    exact Bool.false_ne_true (hb.mp hitem).symm
  have hbackward : ∃ item ∈ backwardClass.items, item.Backward := by decide
  refine ⟨(parse_class [] mixedClass .empty).2.2 hmixed ⟨_, hmember⟩,
    (parse_class [] fullClass .empty).2.1 hfull hnone, ?_⟩
  obtain ⟨before, first, last, after, heq, -, -, hparse⟩ :=
    (parse_class [] backwardClass .empty).1 hbackward
  rcases before with _ | ⟨item, _ | ⟨item', before⟩⟩
  · simp [backwardClass] at heq
  · simp only [backwardClass, List.cons_append, List.nil_append, List.cons.injEq,
      ClassItem.range.injEq] at heq
    obtain ⟨rfl, ⟨rfl, rfl⟩, -⟩ := heq
    exact hparse
  · simp [backwardClass] at heq

end ActionRegex.Pattern
