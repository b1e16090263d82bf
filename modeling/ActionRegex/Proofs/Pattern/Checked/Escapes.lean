import ActionRegex.Pattern.Lexing
import Mathlib.Tactic.SplitIfs

/-!
# Reading by positions

The readers here see the text as a whole and stand at a position in it. They do not rule out
beforehand what the readers that take bytes from a cursor on have no case for: an escape may turn
out to be a set where only a byte will do, and the text may end where a range needs its last byte.
Such a step has no result (`none`).

Every reader has a result, and it is that of its counterpart (`Follows`): the escapes that stand for
sets are asked for where they are allowed only, and a dash in front of the end is not a range.
-/

namespace ActionRegex.Pattern

namespace Checked

/-! ## Positions and cursors -/

/-- The bytes from a position on. -/
def cursorAt (text : Bytes) (pos : Nat) : Cursor := ⟨pos, text.drop pos⟩

/-- Reading by positions has a result, and it is that of reading from a cursor on. -/
inductive Follows {α : Type} (text : Bytes) :
    Option (Except Error (α × Nat)) → Except Error (α × Cursor) → Prop
  | error (e : Error) : Follows text (some (.error e)) (.error e)
  | ok (a : α) (pos : Nat) : Follows text (some (.ok (a, pos))) (.ok (a, cursorAt text pos))

variable {text : Bytes}

theorem lt_length {pos : Nat} {b : UInt8} (h : text[pos]? = some b) : pos < text.length :=
  (List.getElem?_eq_some_iff.mp h).1

theorem drop_of_some {pos : Nat} {b : UInt8} (h : text[pos]? = some b) :
    text.drop pos = b :: text.drop (pos + 1) := by
  obtain ⟨hlt, rfl⟩ := List.getElem?_eq_some_iff.mp h
  exact List.drop_eq_getElem_cons hlt

theorem drop_of_none {pos : Nat} (h : text[pos]? = none) : text.drop pos = [] :=
  List.drop_eq_nil_of_le (List.getElem?_eq_none_iff.mp h)

namespace Follows

variable {α β : Type} {checked : Option (Except Error (α × Nat))}
  {reading : Except Error (α × Cursor)}

theorem map (h : Follows text checked reading) (f : α → β) :
    Follows text (checked.map (Except.map (Prod.map f id))) (reading.map (Prod.map f id)) := by
  cases h with
  | error e => exact .error e
  | ok a pos => exact .ok (f a) pos

theorem ok_of_drop (a : α) {pos : Nat} {rest : Bytes} (h : text.drop pos = rest) :
    Follows text (some (.ok (a, pos))) (.ok (a, ⟨pos, rest⟩)) := by
  obtain rfl := h
  exact .ok a pos

theorem ne_none (h : Follows text checked reading) : checked ≠ none := by
  rintro rfl
  nomatch h

theorem eq_of_error (h : Follows text checked reading) {e : Error}
    (hchecked : checked = some (.error e)) : reading = .error e := by
  subst hchecked
  cases h
  rfl

theorem eq_of_ok (h : Follows text checked reading) {a : α} {pos : Nat}
    (hchecked : checked = some (.ok (a, pos))) : reading = .ok (a, cursorAt text pos) := by
  subst hchecked
  cases h
  rfl

end Follows

/-! ## Escapes -/

/-- The next byte, if there is one, and the position behind it. -/
def next (text : Bytes) (pos : Nat) : Option UInt8 × Nat :=
  match text[pos]? with
  | none => (none, pos)
  | some b => (some b, pos + 1)

/-- Reads the escape at a position. It may be a set if `sets` says so. -/
def readEscape (text : Bytes) (sets : Bool) (start : Nat) :
    Except Error ((UInt8 ⊕ ByteSet) × Nat) :=
  match text[start + 1]? with
  | none => .error ⟨.unexpectedEnd, ⟨start, start + 1⟩⟩
  | some b =>
    if Ascii.isHigh b then .error (unexpectedChar (cursorAt text (start + 1)))
    else if b = Ascii.ofChar 'n' then .ok (.inl Ascii.newline, start + 2)
    else if b = Ascii.ofChar 'r' then .ok (.inl Ascii.carriageReturn, start + 2)
    else if b = Ascii.ofChar 't' then .ok (.inl Ascii.tab, start + 2)
    else if b = Ascii.ofChar 'e' then .ok (.inl Ascii.escape, start + 2)
    else if b = Ascii.ofChar 'x' then
      let (hi, pos) := next text (start + 2)
      let (lo, pos) := next text pos
      match hi.bind Ascii.hexValue?, lo.bind Ascii.hexValue? with
      | some high, some low => .ok (.inl (16 * high + low), pos)
      | _, _ => .error ⟨.invalidEscape, ⟨start, pos⟩⟩
    else if b = Ascii.ofChar 'c' then
      match next text (start + 2) with
      | (none, pos) => .error ⟨.unexpectedEnd, ⟨start, pos⟩⟩
      | (some control, pos) => .ok (.inl (control &&& 0x1f), pos)
    else
      match if sets then ByteSet.ofEscape? b else none with
      | some set => .ok (.inr set, start + 2)
      | none => .ok (.inl b, start + 2)

/-- Reads an escape that has to be a byte. -/
def readEscapedByte (text : Bytes) (start : Nat) : Option (Except Error (UInt8 × Nat)) :=
  match readEscape text false start with
  | .error e => some (.error e)
  | .ok (.inl b, pos) => some (.ok (b, pos))
  | .ok (.inr _, _) => none

theorem next_of_none {pos : Nat} (h : text[pos]? = none) : next text pos = (none, pos) := by
  rw [next, h]

theorem next_of_some {pos : Nat} {b : UInt8} (h : text[pos]? = some b) :
    next text pos = (some b, pos + 1) := by
  rw [next, h]

/-- An escape that may be no set is a byte. -/
theorem follows_readEscape_false (text : Bytes) (start : Nat) :
    Follows text (some (readEscape text false start))
      ((Pattern.readEscapedByte start (text.drop (start + 1))).map (Prod.map Sum.inl id)) := by
  unfold readEscape
  cases hb : text[start + 1]? with
  | none =>
    rw [drop_of_none hb]
    exact .error _
  | some b =>
    rw [drop_of_some hb]
    unfold Pattern.readEscapedByte
    simp only [Bool.false_eq_true, ↓reduceIte]
    split_ifs with hhigh _ _ _ _ hx hc
    · rw [cursorAt, drop_of_some hb]
      exact .error _
    · exact .ok _ _
    · exact .ok _ _
    · exact .ok _ _
    · exact .ok _ _
    · -- two digits, or the end of the text before them
      cases hhi : text[start + 2]? with
      | none =>
        rw [drop_of_none hhi, next_of_none hhi]
        simp only [next_of_none hhi]
        exact .error _
      | some hi =>
        rw [drop_of_some hhi, next_of_some hhi]
        cases hlo : text[start + 3]? with
        | none =>
          rw [drop_of_none hlo]
          simp only [next_of_none hlo, Option.bind_some, Option.bind_none]
          cases Ascii.hexValue? hi <;> exact .error _
        | some lo =>
          rw [drop_of_some hlo]
          simp only [next_of_some hlo, Option.bind_some]
          cases Ascii.hexValue? hi with
          | none => exact .error _
          | some high =>
            cases Ascii.hexValue? lo with
            | none => exact .error _
            | some low => exact .ok _ _
    · cases hcontrol : text[start + 2]? with
      | none =>
        rw [drop_of_none hcontrol, next_of_none hcontrol]
        exact .error _
      | some control =>
        rw [drop_of_some hcontrol, next_of_some hcontrol]
        exact .ok _ _
    · exact .ok _ _

theorem follows_readEscapedByte (text : Bytes) (start : Nat) :
    Follows text (readEscapedByte text start)
      (Pattern.readEscapedByte start (text.drop (start + 1))) := by
  have hescape := follows_readEscape_false text start
  unfold readEscapedByte
  generalize readEscape text false start = checked at hescape ⊢
  cases hreading : Pattern.readEscapedByte start (text.drop (start + 1)) with
  | error e =>
    rw [hreading] at hescape
    cases hescape
    exact .error e
  | ok result =>
    obtain ⟨b, next⟩ := result
    rw [hreading] at hescape
    cases hescape
    exact .ok b _

/-- The letters of sets have no other meaning. -/
theorem plain_of_ofEscape? {b : UInt8} {set : ByteSet} (hset : ByteSet.ofEscape? b = some set) :
    Ascii.isHigh b = false ∧ b ≠ Ascii.ofChar 'n' ∧ b ≠ Ascii.ofChar 'r' ∧ b ≠ Ascii.ofChar 't' ∧
      b ≠ Ascii.ofChar 'e' ∧ b ≠ Ascii.ofChar 'x' ∧ b ≠ Ascii.ofChar 'c' := by
  have hletter : b = Ascii.ofChar 'w' ∨ b = Ascii.ofChar 'W' ∨ b = Ascii.ofChar 's' ∨
      b = Ascii.ofChar 'S' ∨ b = Ascii.ofChar 'd' ∨ b = Ascii.ofChar 'D' := by
    unfold ByteSet.ofEscape? at hset
    split_ifs at hset <;> simp_all
  rcases hletter with rfl | rfl | rfl | rfl | rfl | rfl <;> decide

theorem readEscape_of_set {start : Nat} {b : UInt8} {set : ByteSet} (hb : text[start + 1]? = some b)
    (hset : ByteSet.ofEscape? b = some set) :
    readEscape text true start = .ok (.inr set, start + 2) := by
  obtain ⟨hhigh, hn, hr, ht, he, hx, hc⟩ := plain_of_ofEscape? hset
  simp only [readEscape, hb, hhigh, hn, hr, ht, he, hx, hc, if_false, if_true, hset,
    Bool.false_eq_true]

theorem readEscape_of_no_set {start : Nat} (hset : text[start + 1]?.bind ByteSet.ofEscape? = none) :
    readEscape text true start = readEscape text false start := by
  unfold readEscape
  cases hb : text[start + 1]? with
  | none => rfl
  | some b =>
    rw [hb, Option.bind_some] at hset
    simp only [hset, if_true, Bool.false_eq_true, if_false]

theorem follows_readEscape (text : Bytes) (start : Nat) :
    Follows text (some (readEscape text true start))
      (Pattern.readEscape start (text.drop (start + 1))) := by
  unfold Pattern.readEscape
  rw [List.head?_drop]
  cases hset : text[start + 1]?.bind ByteSet.ofEscape? with
  | none =>
    have hescape := follows_readEscape_false text start
    rw [readEscape_of_no_set hset]
    cases hreading : Pattern.readEscapedByte start (text.drop (start + 1)) with
    | error e =>
      rw [hreading] at hescape
      exact hescape
    | ok result =>
      rw [hreading] at hescape
      exact hescape
  | some set =>
    obtain ⟨b, hb, hset⟩ := Option.bind_eq_some_iff.mp hset
    rw [readEscape_of_set hb hset, List.tail_drop]
    exact .ok _ _

/-! ## Quoted text -/

theorem sub_lt_of_readEscapedByte {start pos : Nat} {b : UInt8}
    (h : readEscapedByte text start = some (.ok (b, pos))) :
    text.length - pos < text.length - (start + 1) := by
  have hlength := readEscapedByte_rest ((follows_readEscapedByte text start).eq_of_ok h)
  rwa [cursorAt, List.length_drop, List.length_drop] at hlength

/-- Reads quoted text from a position on. -/
def readQuoted (text : Bytes) (delimiter : UInt8) (start pos : Nat) (read : Bytes) :
    Option (Except Error (Bytes × Nat)) :=
  match _hb : text[pos]? with
  | none => some (.error ⟨.unexpectedEnd, ⟨start, pos⟩⟩)
  | some b =>
    if b = delimiter then some (.ok (read.reverse, pos + 1))
    else if b = Ascii.backslash then
      match _h : readEscapedByte text pos with
      | none => none
      | some (.error e) => some (.error e)
      | some (.ok (value, next)) => readQuoted text delimiter start next (value :: read)
    else readQuoted text delimiter start (pos + 1) (b :: read)
termination_by text.length - pos
decreasing_by
  · have := sub_lt_of_readEscapedByte _h
    omega
  · have := lt_length _hb
    omega

theorem readQuoted_cons (delimiter : UInt8) (start pos : Nat) (b : UInt8) (rest read : Bytes) :
    Pattern.readQuoted delimiter start ⟨pos, b :: rest⟩ read =
      if b = delimiter then .ok (read.reverse, ⟨pos + 1, rest⟩)
      else if b = Ascii.backslash then
        match Pattern.readEscapedByte pos rest with
        | .error e => .error e
        | .ok (value, next) => Pattern.readQuoted delimiter start next (value :: read)
      else Pattern.readQuoted delimiter start ⟨pos + 1, rest⟩ (b :: read) := by
  rw [Pattern.readQuoted]
  simp only
  split_ifs
  · rfl
  · split <;> simp [*]
  · rfl

theorem follows_readQuoted (text : Bytes) (delimiter : UInt8) (start pos : Nat) (read : Bytes) :
    Follows text (readQuoted text delimiter start pos read)
      (Pattern.readQuoted delimiter start (cursorAt text pos) read) := by
  fun_induction readQuoted text delimiter start pos read with
  | case1 pos read hb =>
    rw [cursorAt, drop_of_none hb, Pattern.readQuoted]
    exact .error _
  | case2 pos read hb =>
    rw [cursorAt, drop_of_some hb, readQuoted_cons, if_pos rfl]
    exact .ok _ _
  | case3 pos read hescape hb hne =>
    exact absurd hescape (follows_readEscapedByte text pos).ne_none
  | case4 pos read e hescape hb hne =>
    have hreading := (follows_readEscapedByte text pos).eq_of_error hescape
    rw [cursorAt, drop_of_some hb, readQuoted_cons, if_neg hne, if_pos rfl, hreading]
    exact .error e
  | case5 pos read value next hescape hb hne ih =>
    have hreading := (follows_readEscapedByte text pos).eq_of_ok hescape
    rw [cursorAt, drop_of_some hb, readQuoted_cons, if_neg hne, if_pos rfl, hreading]
    exact ih
  | case6 pos read b hb hne hbackslash ih =>
    rw [cursorAt, drop_of_some hb, readQuoted_cons, if_neg hne, if_neg hbackslash]
    exact ih

/-! ## Classes -/

/-- A range of bytes that ends at a position. -/
def closeRange (itemStart : Nat) (first last : UInt8) (pos : Nat) :
    Except Error (ByteSet × Nat) :=
  if last < first then .error ⟨.backwardRange first last, ⟨itemStart, pos⟩⟩
  else .ok (ByteSet.range first last, pos)

theorem follows_closeRange (text : Bytes) (itemStart : Nat) (first last : UInt8) (pos : Nat) :
    Follows text (some (closeRange itemStart first last pos))
      (Pattern.closeRange itemStart first last (cursorAt text pos)) := by
  unfold closeRange Pattern.closeRange
  split
  · exact .error _
  · exact .ok _ _

/-- Reads what may follow the first byte of a class item. -/
def readRange (text : Bytes) (itemStart : Nat) (first : UInt8) (pos : Nat) :
    Option (Except Error (ByteSet × Nat)) :=
  if text[pos]? = some Ascii.minus ∧
      ¬ (text[pos + 1]? = some Ascii.rightBracket ∨ text[pos + 1]? = none) then
    match text[pos + 1]? with
    | none => none
    | some last =>
      if last = Ascii.backslash then
        match readEscapedByte text (pos + 1) with
        | none => none
        | some (.error e) => some (.error e)
        | some (.ok (value, next)) => some (closeRange itemStart first value next)
      else some (closeRange itemStart first last (pos + 2))
  else some (.ok (ByteSet.singleton first, pos))

/-- A range that goes on behind its dash has a byte there. -/
theorem follows_readRange (text : Bytes) (itemStart : Nat) (first : UInt8) (pos : Nat) :
    Follows text (readRange text itemStart first pos)
      (Pattern.readRange itemStart first (cursorAt text pos)) := by
  unfold readRange Pattern.readRange
  cases hminus : text[pos]? with
  | none =>
    simp only [cursorAt, drop_of_none hminus]
    rw [if_neg (by simp)]
    exact .ok_of_drop _ (drop_of_none hminus)
  | some minus =>
    cases hlast : text[pos + 1]? with
    | none =>
      have hdrop : text.drop pos = [minus] := by rw [drop_of_some hminus, drop_of_none hlast]
      simp only [cursorAt, hdrop]
      rw [if_neg (by simp)]
      exact .ok_of_drop _ hdrop
    | some last =>
      have hdrop : text.drop pos = minus :: last :: text.drop (pos + 2) := by
        rw [drop_of_some hminus, drop_of_some hlast]
      simp only [cursorAt, hdrop, Option.some.injEq, or_false, reduceCtorEq]
      split_ifs
      · have hfollows := follows_readEscapedByte text (pos + 1)
        generalize readEscapedByte text (pos + 1) = checked at hfollows ⊢
        generalize Pattern.readEscapedByte (pos + 1) _ = reading at hfollows ⊢
        cases hfollows with
        | error e => exact .error e
        | ok value next => exact follows_closeRange _ _ _ _ _
      · exact follows_closeRange _ _ _ _ _
      · exact .ok_of_drop _ hdrop

/-- Reads one item of a class, or the bracket that closes the class. -/
def readClassItem (text : Bytes) (start pos : Nat) :
    Option (Except Error (Option ByteSet × Nat)) :=
  match text[pos]? with
  | none => some (.error ⟨.unterminatedClass, ⟨start, pos⟩⟩)
  | some b =>
    if b = Ascii.rightBracket then some (.ok (none, pos + 1))
    else if b = Ascii.dot then some (.ok (some ByteSet.dot, pos + 1))
    else if b = Ascii.backslash then
      match readEscape text true pos with
      | .error e => some (.error e)
      | .ok (.inr set, next) => some (.ok (some set, next))
      | .ok (.inl first, next) =>
        (readRange text pos first next).map (Except.map (Prod.map some id))
    else (readRange text pos b (pos + 1)).map (Except.map (Prod.map some id))

theorem follows_readClassItem (text : Bytes) (start pos : Nat) :
    Follows text (readClassItem text start pos)
      (Pattern.readClassItem start (cursorAt text pos)) := by
  unfold readClassItem Pattern.readClassItem
  cases hb : text[pos]? with
  | none =>
    simp only [cursorAt, drop_of_none hb]
    exact .error _
  | some b =>
    simp only [cursorAt, drop_of_some hb]
    split_ifs
    · exact .ok _ _
    · exact .ok _ _
    · have hfollows := follows_readEscape text pos
      generalize readEscape text true pos = checked at hfollows ⊢
      generalize Pattern.readEscape pos _ = reading at hfollows ⊢
      cases hfollows with
      | error e => exact .error e
      | ok value next =>
        cases value with
        | inl first => exact (follows_readRange text pos first next).map some
        | inr set => exact .ok _ _
    · exact (follows_readRange text pos b (pos + 1)).map some

theorem sub_lt_of_readClassItem {start pos next : Nat} {set : Option ByteSet}
    (h : readClassItem text start pos = some (.ok (set, next))) :
    text.length - next < text.length - pos := by
  have hlength := readClassItem_rest ((follows_readClassItem text start pos).eq_of_ok h)
  rwa [cursorAt, cursorAt, List.length_drop, List.length_drop] at hlength

/-- Reads the items of a class up to the closing bracket. -/
def readClassItems (text : Bytes) (start pos : Nat) (set : ByteSet) :
    Option (Except Error (ByteSet × Nat)) :=
  match _h : readClassItem text start pos with
  | none => none
  | some (.error e) => some (.error e)
  | some (.ok (none, next)) => some (.ok (set, next))
  | some (.ok (some members, next)) => readClassItems text start next (set.union members)
termination_by text.length - pos
decreasing_by exact sub_lt_of_readClassItem _h

theorem follows_readClassItems (text : Bytes) (start pos : Nat) (set : ByteSet) :
    Follows text (readClassItems text start pos set)
      (Pattern.readClassItems start (cursorAt text pos) set) := by
  fun_induction readClassItems text start pos set with
  | case1 pos set hitem =>
    exact absurd hitem (follows_readClassItem text start pos).ne_none
  | case2 pos set e hitem =>
    rw [readClassItems_of_error ((follows_readClassItem text start pos).eq_of_error hitem)]
    exact .error e
  | case3 pos set next hitem =>
    rw [readClassItems_of_none ((follows_readClassItem text start pos).eq_of_ok hitem)]
    exact .ok _ _
  | case4 pos set members next hitem ih =>
    rw [readClassItems_of_some ((follows_readClassItem text start pos).eq_of_ok hitem)]
    exact ih

/-- The item of a class that ends at a position. -/
def closeClass (start : Nat) (set : ByteSet) (pos : Nat) : Except Error (Item × Nat) :=
  if set.isEmpty then .error ⟨.emptyClass, ⟨start, pos⟩⟩ else .ok (.oneOf set, pos)

theorem follows_closeClass (text : Bytes) (start : Nat) (set : ByteSet) (pos : Nat) :
    Follows text (some (closeClass start set pos))
      (Pattern.closeClass start set (cursorAt text pos)) := by
  unfold closeClass Pattern.closeClass
  split
  · exact .error _
  · exact .ok _ _

/-- Reads the class at a position. -/
def readClass (text : Bytes) (start : Nat) : Option (Except Error (Item × Nat)) :=
  let negated := text[start + 1]? == some Ascii.caret
  match readClassItems text start (if negated then start + 2 else start + 1) ByteSet.empty with
  | none => none
  | some (.error e) => some (.error e)
  | some (.ok (members, pos)) =>
    some (closeClass start (if negated then members.complement else members) pos)

theorem follows_readClass (text : Bytes) (start : Nat) :
    Follows text (readClass text start) (Pattern.readClass start (text.drop (start + 1))) := by
  have hnegated : isNegated (text.drop (start + 1)) = (text[start + 1]? == some Ascii.caret) := by
    rw [isNegated, List.head?_drop]
  have hfirst : firstItem start (text.drop (start + 1)) = cursorAt text
      (if text[start + 1]? == some Ascii.caret then start + 2 else start + 1) := by
    rw [firstItem, hnegated]
    split
    · rw [List.tail_drop]
      rfl
    · rfl
  unfold readClass Pattern.readClass
  simp only [hnegated, hfirst]
  generalize (text[start + 1]? == some Ascii.caret) = negated
  have hfollows := follows_readClassItems text start (if negated then start + 2 else start + 1)
    ByteSet.empty
  generalize readClassItems text start _ _ = checked at hfollows ⊢
  generalize Pattern.readClassItems start _ _ = reading at hfollows ⊢
  cases hfollows with
  | error e => exact .error e
  | ok members pos => exact follows_closeClass _ _ _ _

end Checked

end ActionRegex.Pattern
