import ActionRegex.Proofs.Pattern.Scanning
import Mathlib.Data.List.DropRight

/-!
# Reading a text whose end is taken away

A reader that leaves the last bytes of a text takes the same bytes when they are not there
(`…_cut`): it looks at one byte behind what it takes at most, and at the end of the text it goes on
as if that byte had no meaning for it. So a reading up to a place is a reading of the text up to
there (`Scans.lexed_of_append`).
-/

namespace ActionRegex

/-! ## The end of a text -/

theorem rdrop_cons {n : Nat} {rest : Bytes} (hn : n ≤ rest.length) (b : UInt8) :
    (b :: rest : Bytes).rdrop n = b :: List.rdrop rest n := by
  rw [List.rdrop, List.rdrop, List.length_cons, Nat.succ_sub hn, List.take_succ_cons]

theorem head?_rdrop {n : Nat} (bytes : Bytes) (hn : n < bytes.length) :
    (bytes.rdrop n).head? = bytes.head? ∧ (bytes.rdrop n).tail = bytes.tail.rdrop n := by
  cases bytes with
  | nil => simp at hn
  | cons b rest =>
    rw [rdrop_cons (Nat.le_of_lt_succ hn)]
    exact ⟨rfl, rfl⟩

/-- A run of bytes of which the last is not taken away. -/
theorem takeWhile_rdrop {p : UInt8 → Bool} {n : Nat} {bytes : Bytes}
    (hn : n ≤ (bytes.dropWhile p).length) :
    (bytes.rdrop n).takeWhile p = bytes.takeWhile p ∧
      (bytes.rdrop n).dropWhile p = (bytes.dropWhile p).rdrop n := by
  induction bytes with
  | nil => simp
  | cons b rest ih =>
    by_cases hb : p b = true
    · rw [List.dropWhile_cons_of_pos hb] at hn
      have hle : n ≤ rest.length := Nat.le_trans hn (List.dropWhile_sublist p).length_le
      obtain ⟨htake, hdrop⟩ := ih hn
      rw [rdrop_cons hle, List.takeWhile_cons_of_pos hb, List.takeWhile_cons_of_pos hb,
        List.dropWhile_cons_of_pos hb, List.dropWhile_cons_of_pos hb, htake, hdrop]
      exact ⟨rfl, rfl⟩
    · rw [List.dropWhile_cons_of_neg hb] at hn ⊢
      rw [List.takeWhile_cons_of_neg hb]
      by_cases hle : n ≤ rest.length
      · rw [rdrop_cons hle, List.takeWhile_cons_of_neg hb, List.dropWhile_cons_of_neg hb]
        exact ⟨rfl, rfl⟩
      · have hnil : (b :: rest).rdrop n = [] := by
          rw [List.rdrop, Nat.sub_eq_zero_of_le (by rw [List.length_cons]; omega), List.take_zero]
        rw [hnil]
        exact ⟨rfl, rfl⟩

namespace Pattern

/-- A cursor in a text without its last `n` bytes. -/
def Cursor.cut (n : Nat) (cursor : Cursor) : Cursor := ⟨cursor.pos, cursor.rest.rdrop n⟩

theorem Cursor.cut_cons {n : Nat} {rest : Bytes} (hn : n ≤ rest.length) (pos : Nat) (b : UInt8) :
    Cursor.cut n ⟨pos, b :: rest⟩ = ⟨pos, b :: rest.rdrop n⟩ := by
  rw [Cursor.cut, rdrop_cons hn]

variable {n : Nat}

/-! ## Escapes and quoted text -/

theorem readEscapedByte_cut {start : Nat} {input : Bytes} {b : UInt8} {next : Cursor}
    (h : readEscapedByte start input = .ok (b, next)) (hn : n ≤ next.rest.length) :
    readEscapedByte start (input.rdrop n) = .ok (b, next.cut n) := by
  have hrest := readEscapedByte_rest h
  cases input with
  | nil => simp [readEscapedByte] at h
  | cons c rest =>
    rw [List.length_cons] at hrest
    rw [rdrop_cons (by omega)]
    unfold readEscapedByte at h ⊢
    dsimp only at h ⊢
    split_ifs at h ⊢
    · obtain ⟨rfl, rfl⟩ := Prod.mk.inj (Except.ok.inj h)
      rfl
    · obtain ⟨rfl, rfl⟩ := Prod.mk.inj (Except.ok.inj h)
      rfl
    · obtain ⟨rfl, rfl⟩ := Prod.mk.inj (Except.ok.inj h)
      rfl
    · obtain ⟨rfl, rfl⟩ := Prod.mk.inj (Except.ok.inj h)
      rfl
    · split at h
      · next hi lo rest =>
        split at h
        · next high low hhigh hlow =>
          obtain ⟨rfl, rfl⟩ := Prod.mk.inj (Except.ok.inj h)
          simp only at hn
          rw [rdrop_cons (by rw [List.length_cons]; omega), rdrop_cons hn]
          simp only [hhigh, hlow]
          rfl
        · simp at h
      · simp at h
    · split at h
      · simp at h
      · next control rest =>
        obtain ⟨rfl, rfl⟩ := Prod.mk.inj (Except.ok.inj h)
        rw [rdrop_cons hn]
        rfl
    · obtain ⟨rfl, rfl⟩ := Prod.mk.inj (Except.ok.inj h)
      rfl

theorem readEscape_cut {start : Nat} {input : Bytes} {result : UInt8 ⊕ ByteSet} {next : Cursor}
    (h : readEscape start input = .ok (result, next)) (hn : n ≤ next.rest.length) :
    readEscape start (input.rdrop n) = .ok (result, next.cut n) := by
  have hrest := readEscape_rest h
  obtain ⟨hhead, htail⟩ := head?_rdrop (n := n) input (by omega)
  unfold readEscape at h ⊢
  rw [hhead, htail]
  split at h
  · obtain ⟨rfl, rfl⟩ := Prod.mk.inj (Except.ok.inj h)
    rfl
  · split at h
    · next hescape =>
      obtain ⟨rfl, rfl⟩ := Prod.mk.inj (Except.ok.inj h)
      rw [readEscapedByte_cut hescape hn]
    · simp at h

theorem readQuoted_cut {delimiter : UInt8} {start : Nat} {cursor next : Cursor}
    {read bytes : Bytes} (h : readQuoted delimiter start cursor read = .ok (bytes, next))
    (hn : n ≤ next.rest.length) :
    readQuoted delimiter start (cursor.cut n) read = .ok (bytes, next.cut n) := by
  fun_induction readQuoted delimiter start cursor read with
  | case1 => simp at h
  | case2 cursor read rest hrest =>
    obtain ⟨pos, _⟩ := cursor
    obtain rfl := hrest
    obtain ⟨rfl, rfl⟩ := Prod.mk.inj (Except.ok.inj h)
    rw [Cursor.cut_cons hn, readQuoted]
    simp only [if_true]
    rfl
  | case3 => simp at h
  | case4 cursor read rest value next' hescape hrest hne ih =>
    obtain ⟨pos, _⟩ := cursor
    obtain rfl := hrest
    have hle := readQuoted_rest h
    have hle' := readEscapedByte_rest hescape
    have hcut := readEscapedByte_cut hescape (n := n) (by omega)
    rw [Cursor.cut_cons (by omega)]
    unfold readQuoted
    simp only [if_neg hne, if_true]
    split
    · next herror => exact absurd (hcut.symm.trans herror) (by simp)
    · next hok =>
      obtain ⟨rfl, rfl⟩ := Prod.mk.inj (Except.ok.inj (hcut.symm.trans hok))
      exact ih h
  | case5 cursor read b rest hrest hne hbackslash ih =>
    obtain ⟨pos, _⟩ := cursor
    obtain rfl := hrest
    have hle := readQuoted_rest h
    simp only at hle
    rw [Cursor.cut_cons (by omega)]
    unfold readQuoted
    simp only [if_neg hne, if_neg hbackslash]
    exact ih h

/-! ## Classes -/

theorem closeRange_cut {itemStart : Nat} {a b : UInt8} {cursor next : Cursor} {set : ByteSet}
    (h : closeRange itemStart a b cursor = .ok (set, next)) :
    closeRange itemStart a b (cursor.cut n) = .ok (set, next.cut n) := by
  unfold closeRange at h ⊢
  split at h
  · simp at h
  · next hle =>
    obtain ⟨rfl, rfl⟩ := Prod.mk.inj (Except.ok.inj h)
    exact if_neg hle

/-- One byte is no range, and neither are two of which the first is not a minus or the second closes
the class; taking away the second or both changes nothing. -/
theorem readRange_rdrop {minus last : UInt8} {rest : Bytes}
    (hrange : ¬ (minus = Ascii.minus ∧ last ≠ Ascii.rightBracket)) (n itemStart pos : Nat)
    (a : UInt8) : readRange itemStart a ⟨pos, (minus :: last :: rest : Bytes).rdrop n⟩ =
      .ok (ByteSet.singleton a, ⟨pos, (minus :: last :: rest : Bytes).rdrop n⟩) := by
  by_cases hn : n ≤ rest.length
  · rw [rdrop_cons (by rw [List.length_cons]; omega), rdrop_cons hn, readRange]
    exact if_neg hrange
  · have hshort : ((minus :: last :: rest : Bytes).rdrop n).length < 2 := by
      simp only [List.rdrop, List.length_take, List.length_cons]
      omega
    unfold readRange
    split
    · next heq =>
      simp only at heq
      rw [heq, List.length_cons, List.length_cons] at hshort
      omega
    · rfl

theorem readRange_cut {itemStart : Nat} {a : UInt8} {cursor next : Cursor} {set : ByteSet}
    (h : readRange itemStart a cursor = .ok (set, next)) (hn : n ≤ next.rest.length) :
    readRange itemStart a (cursor.cut n) = .ok (set, next.cut n) := by
  obtain ⟨pos, bytes⟩ := cursor
  unfold readRange at h
  simp only at h
  split at h
  · next minus last rest =>
    split_ifs at h with hrange hlast
    · split at h
      · simp at h
      · next value next' hescape =>
        have hle := readEscapedByte_rest hescape
        have hnext := closeRange_rest h
        subst hnext
        rw [Cursor.cut_cons (by rw [List.length_cons]; omega), rdrop_cons (by omega), readRange]
        simp only [if_pos hrange, if_pos hlast, readEscapedByte_cut hescape hn]
        exact closeRange_cut h
    · have hnext := closeRange_rest h
      subst hnext
      simp only at hn
      rw [Cursor.cut_cons (by rw [List.length_cons]; omega), rdrop_cons hn, readRange]
      simp only [if_pos hrange, if_neg hlast]
      exact closeRange_cut h
    · obtain ⟨rfl, rfl⟩ := Prod.mk.inj (Except.ok.inj h)
      exact readRange_rdrop hrange n itemStart pos a
  · next hshort =>
    obtain ⟨rfl, rfl⟩ := Prod.mk.inj (Except.ok.inj h)
    have hnot : ∀ minus last rest, bytes.rdrop n ≠ minus :: last :: rest := by
      intro minus last rest heq
      have hprefix : bytes.rdrop n <+: bytes := List.take_prefix _ _
      obtain ⟨tail, htail⟩ := hprefix
      rw [heq] at htail
      exact hshort _ _ _ htail.symm
    unfold readRange
    split
    · next heq => exact absurd heq (hnot _ _ _)
    · rfl

theorem map_readRange_cut {itemStart : Nat} {a : UInt8} {cursor next : Cursor}
    {set : Option ByteSet}
    (h : (readRange itemStart a cursor).map (Prod.map some id) = .ok (set, next))
    (hn : n ≤ next.rest.length) :
    (readRange itemStart a (cursor.cut n)).map (Prod.map some id) = .ok (set, next.cut n) := by
  cases hrange : readRange itemStart a cursor with
  | error e => simp [hrange, Except.map] at h
  | ok result =>
    obtain ⟨members, next'⟩ := result
    rw [hrange] at h
    obtain ⟨rfl, rfl⟩ := Prod.mk.inj (Except.ok.inj h)
    rw [readRange_cut hrange hn]
    rfl

theorem readClassItem_cut {start : Nat} {cursor next : Cursor} {set : Option ByteSet}
    (h : readClassItem start cursor = .ok (set, next)) (hn : n ≤ next.rest.length) :
    readClassItem start (cursor.cut n) = .ok (set, next.cut n) := by
  have hlt := readClassItem_rest h
  obtain ⟨pos, bytes⟩ := cursor
  unfold readClassItem at h
  simp only at h
  split at h
  · simp at h
  · next b rest =>
    rw [List.length_cons] at hlt
    rw [Cursor.cut_cons (by omega)]
    unfold readClassItem
    simp only
    split_ifs at h ⊢
    · obtain ⟨rfl, rfl⟩ := Prod.mk.inj (Except.ok.inj h)
      rfl
    · obtain ⟨rfl, rfl⟩ := Prod.mk.inj (Except.ok.inj h)
      rfl
    · split at h
      · simp at h
      · next members next' hescape =>
        obtain ⟨rfl, rfl⟩ := Prod.mk.inj (Except.ok.inj h)
        rw [readEscape_cut hescape hn]
      · next first next' hescape =>
        have hle := map_some_rest h
        rw [readEscape_cut hescape (by omega)]
        exact map_readRange_cut h hn
    · exact map_readRange_cut h hn

theorem readClassItems_cut {start : Nat} {cursor next : Cursor} {set result : ByteSet}
    (h : readClassItems start cursor set = .ok (result, next)) (hn : n ≤ next.rest.length) :
    readClassItems start (cursor.cut n) set = .ok (result, next.cut n) := by
  fun_induction readClassItems start cursor set with
  | case1 => simp at h
  | case2 cursor set next' hitem =>
    obtain ⟨rfl, rfl⟩ := Prod.mk.inj (Except.ok.inj h)
    exact readClassItems_of_none (readClassItem_cut hitem hn) set
  | case3 cursor set members next' hitem ih =>
    have hle := readClassItems_rest h
    rw [readClassItems_of_some (readClassItem_cut hitem (by omega))]
    exact ih h

theorem closeClass_cut {start : Nat} {set : ByteSet} {cursor next : Cursor} {item : Item}
    (h : closeClass start set cursor = .ok (item, next)) :
    closeClass start set (cursor.cut n) = .ok (item, next.cut n) := by
  unfold closeClass at h ⊢
  split at h
  · simp at h
  · next hmember =>
    obtain ⟨rfl, rfl⟩ := Prod.mk.inj (Except.ok.inj h)
    exact if_neg hmember

theorem readClass_cut {start : Nat} {rest : Bytes} {item : Item} {next : Cursor}
    (h : readClass start rest = .ok (item, next)) (hn : n ≤ next.rest.length) :
    readClass start (rest.rdrop n) = .ok (item, next.cut n) := by
  unfold readClass at h
  split at h
  · simp at h
  · next members next' hitems =>
    have hlt := readClassItems_rest hitems
    have hfirst := firstItem_rest start rest
    have hnext := closeClass_rest h
    subst hnext
    obtain ⟨hhead, htail⟩ := head?_rdrop (n := n) rest (by omega)
    have hnegated : isNegated (rest.rdrop n) = isNegated rest := by
      rw [isNegated, hhead, isNegated]
    have hcut : firstItem start (rest.rdrop n) = (firstItem start rest).cut n := by
      unfold firstItem
      rw [hnegated, htail]
      split
      · rfl
      · rfl
    rw [readClass, hnegated, hcut, readClassItems_cut hitems hn]
    exact closeClass_cut h

/-! ## Action blocks -/

/-- What is found in a text without its end, one byte later, is found now. -/
theorem blockLength_cons_cut {state state' : BlockState} {depth depth' count m : Nat} {b : UInt8}
    {rest : Bytes}
    (hstep : ∀ rest, blockLength state depth count (b :: rest) =
      blockLength state' depth' (count + 1) rest)
    (hm : n + m + 1 ≤ count + 1 + rest.length → blockLength state' depth' (count + 1)
      (rest.rdrop n) = some m)
    (hle : count + 1 ≤ m) (hn : n + m + 1 ≤ count + (b :: rest).length) :
    blockLength state depth count ((b :: rest).rdrop n) = some m := by
  rw [List.length_cons] at hn
  rw [rdrop_cons (by omega), hstep]
  exact hm (by omega)

theorem le_of_blockLength {state : BlockState} {depth count m : Nat} {bytes : Bytes}
    (h : blockLength state depth count bytes = some m) : count ≤ m := by
  obtain ⟨k, rfl, -⟩ := reads_blockLength h 0
  exact Nat.le_add_right count k

theorem blockLength_cut {state : BlockState} {depth count m : Nat} {bytes : Bytes}
    (h : blockLength state depth count bytes = some m) (hn : n + m + 1 ≤ count + bytes.length) :
    blockLength state depth count (bytes.rdrop n) = some m := by
  fun_induction blockLength state depth count bytes with
  | case1 => simp at h
  | case2 depth count rest ih =>
    exact blockLength_cons_cut (fun _ => rfl) (ih h) (le_of_blockLength h) hn
  | case3 count rest =>
    obtain rfl := Option.some.inj h
    rw [List.length_cons] at hn
    rw [rdrop_cons (by omega)]
    rfl
  | case4 depth count rest hdepth _ ih =>
    exact blockLength_cons_cut (fun _ => if_neg hdepth) (ih h) (le_of_blockLength h) hn
  | case5 depth count b rest hleft hright hquote ih =>
    refine blockLength_cons_cut (fun rest => ?_) (ih h) (le_of_blockLength h) hn
    rw [blockLength, if_neg hleft, if_neg hright, if_pos hquote]
  | case6 depth count b rest hleft hright hquote ih =>
    refine blockLength_cons_cut (fun rest => ?_) (ih h) (le_of_blockLength h) hn
    rw [blockLength, if_neg hleft, if_neg hright, if_neg hquote]
  | case7 delimiter depth count rest ih =>
    exact blockLength_cons_cut (fun _ => rfl) (ih h) (le_of_blockLength h) hn
  | case8 depth count b rest hbackslash ih =>
    refine blockLength_cons_cut (fun rest => ?_) (ih h) (le_of_blockLength h) hn
    rw [blockLength, if_neg hbackslash, if_pos rfl]
  | case9 delimiter depth count b rest hbackslash hne ih =>
    refine blockLength_cons_cut (fun rest => ?_) (ih h) (le_of_blockLength h) hn
    rw [blockLength, if_neg hbackslash, if_neg hne]
  | case10 delimiter depth count b rest ih =>
    exact blockLength_cons_cut (fun _ => rfl) (ih h) (le_of_blockLength h) hn

theorem readAction_cut {start : Nat} {rest : Bytes} {item : Item} {next : Cursor}
    (h : readAction start rest = .ok (item, next)) (hn : n ≤ next.rest.length) :
    readAction start (rest.rdrop n) = .ok (item, next.cut n) ∧ next.rest.length < rest.length := by
  unfold readAction at h
  split at h
  · simp at h
  · next m hlength =>
    obtain ⟨rfl, rfl⟩ := Prod.mk.inj (Except.ok.inj h)
    obtain ⟨-, hlt⟩ := blockLength_append hlength []
    rw [Nat.zero_add] at hlt
    simp only [List.length_drop] at hn ⊢
    have hcut := blockLength_cut hlength (n := n) (by omega)
    have htake : (rest.rdrop n).take m = rest.take m := by
      rw [List.rdrop, List.take_take, Nat.min_eq_left (by omega)]
    have hdrop : (rest.rdrop n).drop (m + 1) = (rest.drop (m + 1)).rdrop n := by
      rw [List.rdrop, List.rdrop, List.drop_take, List.length_drop, Nat.sub_right_comm]
    refine ⟨?_, by omega⟩
    simp only [readAction, hcut, htake, hdrop]
    rfl

/-! ## Repetitions -/

theorem readBound_cut {start : Nat} {cursor next : Cursor} {bound : Option Nat}
    (h : readBound start cursor = .ok (bound, next)) (hn : n ≤ next.rest.length) :
    readBound start (cursor.cut n) = .ok (bound, next.cut n) := by
  obtain ⟨pos, bytes⟩ := cursor
  unfold readBound at h
  simp only at h
  split_ifs at h with hempty hlarge
  · obtain ⟨rfl, rfl⟩ := Prod.mk.inj (Except.ok.inj h)
    have hdrop : bytes.dropWhile Ascii.isDigit = bytes := by
      have happend := List.takeWhile_append_dropWhile (p := Ascii.isDigit) (l := bytes)
      rwa [List.isEmpty_iff.mp hempty, List.nil_append] at happend
    obtain ⟨htake, -⟩ := takeWhile_rdrop (p := Ascii.isDigit) (hdrop.symm ▸ hn)
    simp only [readBound, Cursor.cut, htake, if_pos hempty]
  · obtain ⟨rfl, rfl⟩ := Prod.mk.inj (Except.ok.inj h)
    obtain ⟨htake, hdrop⟩ := takeWhile_rdrop hn
    simp only [readBound, Cursor.cut, htake, hdrop, if_neg hempty, if_pos hlarge]

theorem readClosingBrace_cut {start : Nat} {item item' : Item} {cursor next : Cursor}
    (h : readClosingBrace start item cursor = .ok (item', next)) (hn : n ≤ next.rest.length) :
    readClosingBrace start item (cursor.cut n) = .ok (item', next.cut n) ∧
      next.rest.length < cursor.rest.length := by
  unfold readClosingBrace at h
  split at h
  · next hbrace =>
    obtain ⟨rfl, rfl⟩ := Prod.mk.inj (Except.ok.inj h)
    obtain ⟨pos, bytes⟩ := cursor
    cases bytes with
    | nil => simp at hbrace
    | cons b rest =>
      simp only [List.tail_cons] at hn ⊢
      rw [Cursor.cut_cons hn]
      exact ⟨if_pos hbrace, Nat.lt_succ_self _⟩
  · simp at h

theorem readRepetition_cut {start : Nat} {rest : Bytes} {item : Item} {next : Cursor}
    (h : readRepetition start rest = .ok (item, next)) (hn : n ≤ next.rest.length) :
    readRepetition start (rest.rdrop n) = .ok (item, next.cut n) ∧
      next.rest.length < rest.length := by
  unfold readRepetition at h
  split at h
  · simp at h
  · next min next' hmin =>
    have hle := readBound_rest hmin
    simp only at hle
    split at h
    · next hcomma =>
      split at h
      · simp at h
      · next max next'' hmax =>
        have hle' := readBound_rest hmax
        simp only [List.length_tail] at hle'
        obtain ⟨hcut, hlt⟩ := readClosingBrace_cut h hn
        obtain ⟨hhead, htail⟩ := head?_rdrop (n := n) next'.rest (by omega)
        have hminCut := readBound_cut hmin (n := n) (by omega)
        have hmaxCut := readBound_cut hmax (n := n) (by omega)
        simp only [Cursor.cut] at hminCut hmaxCut
        refine ⟨?_, by omega⟩
        simp only [readRepetition, hminCut, hhead, htail, if_pos hcomma, hmaxCut]
        exact hcut
    · next hcomma =>
      obtain ⟨hcut, hlt⟩ := readClosingBrace_cut h hn
      obtain ⟨hhead, -⟩ := head?_rdrop (n := n) next'.rest (by omega)
      have hminCut := readBound_cut hmin (n := n) (by omega)
      simp only [Cursor.cut] at hminCut
      refine ⟨?_, by omega⟩
      simp only [readRepetition, hminCut, hhead, if_neg hcomma]
      exact hcut

/-! ## Items -/

theorem startsBounds_rdrop (rest : Bytes) (hn : n < rest.length) :
    startsBounds (rest.rdrop n) = startsBounds rest := by
  rw [startsBounds, (head?_rdrop rest hn).1, startsBounds]

/-- **An item is read in the same way if the end of the text is taken away behind it.** -/
theorem readItem_cut {pos : Nat} {b : UInt8} {rest : Bytes} {item : Item} {next : Cursor}
    (h : readItem pos b rest = .ok (item, next)) (hn : n ≤ next.rest.length) :
    readItem pos b (rest.rdrop n) = .ok (item, next.cut n) := by
  unfold readItem at h
  split at h
  · next hpunctuation =>
    obtain ⟨rfl, rfl⟩ := Prod.mk.inj (Except.ok.inj h)
    rw [readItem, hpunctuation]
    rfl
  · next hpunctuation =>
    split_ifs at h with hbrace hbounds hbracket hbackslash hquote hletter hliteral
    · obtain ⟨hcut, hlt⟩ := readRepetition_cut h hn
      have hstart := startsBounds_rdrop (n := n) rest (by omega)
      simp only [readItem, hpunctuation, hstart, if_pos hbrace, if_pos hbounds, hcut]
    · obtain ⟨hcut, hlt⟩ := readAction_cut h hn
      have hstart := startsBounds_rdrop (n := n) rest (by omega)
      simp only [readItem, hpunctuation, hstart, if_pos hbrace, if_neg hbounds, hcut]
    · simp only [readItem, hpunctuation, if_neg hbrace, if_pos hbracket, readClass_cut h hn]
    · unfold readEscapeItem at h
      simp only [readItem, hpunctuation, if_neg hbrace, if_neg hbracket, if_pos hbackslash,
        readEscapeItem]
      split at h
      · simp at h
      all_goals
        next hescape =>
        obtain ⟨rfl, rfl⟩ := Prod.mk.inj (Except.ok.inj h)
        rw [readEscape_cut hescape hn]
    · unfold readQuotedItem at h
      simp only [readItem, hpunctuation, if_neg hbrace, if_neg hbracket, if_neg hbackslash,
        if_pos hquote, readQuotedItem]
      split at h
      · simp at h
      · next hquoted =>
        obtain ⟨rfl, rfl⟩ := Prod.mk.inj (Except.ok.inj h)
        have hcut := readQuoted_cut hquoted hn
        simp only [Cursor.cut] at hcut
        rw [hcut]
        rfl
    · obtain ⟨rfl, rfl⟩ := Prod.mk.inj (Except.ok.inj h)
      obtain ⟨htake, hdrop⟩ := takeWhile_rdrop hn
      simp only [readItem, hpunctuation, if_neg hbrace, if_neg hbracket, if_neg hbackslash,
        if_neg hquote, if_pos hletter, readName, htake, hdrop]
      rfl
    · obtain ⟨rfl, rfl⟩ := Prod.mk.inj (Except.ok.inj h)
      simp only [readItem, hpunctuation, if_neg hbrace, if_neg hbracket, if_neg hbackslash,
        if_neg hquote, if_neg hletter, if_pos hliteral]
      rfl

/-! ## Readings -/

variable {cursor last : Cursor} {items : List (Item × Span)}

theorem Scans.cut (h : Scans cursor items last) (hn : n ≤ last.rest.length) :
    Scans (cursor.cut n) items (last.cut n) := by
  induction h with
  | refl => exact .refl _
  | @blank pos b rest items last hb hscan ih =>
    have hpos := hscan.pos_le
    have hlength := hscan.length_eq
    simp only at hpos hlength
    rw [Cursor.cut_cons (by omega)]
    exact .blank hb (ih hn)
  | @item pos b rest item next items last hitem hscan ih =>
    have hle := readItem_rest hitem
    have hpos := hscan.pos_le
    have hlength := hscan.length_eq
    have hcut : readItem pos b (rest.rdrop n) = .ok (item, next.cut n) :=
      readItem_cut hitem (by omega)
    rw [Cursor.cut_cons (by omega)]
    show Scans _ ((item, ⟨pos, (next.cut n).pos⟩) :: items) _
    exact .item hcut (ih hn)

/-- **A reading up to a place is a reading of the text up to there.** -/
theorem Scans.lexed_of_append {pos pos' : Nat} {front after : Bytes}
    (h : Scans ⟨pos, front ++ after⟩ items ⟨pos', after⟩) : Lexed ⟨pos, front⟩ items := by
  have hcut := h.cut (n := after.length) (Nat.le_refl _)
  have hnil : after.rdrop after.length = [] := by
    rw [List.rdrop, Nat.sub_self, List.take_zero]
  rw [Cursor.cut, Cursor.cut, List.rdrop_append_length, hnil] at hcut
  exact hcut.lexed

end Pattern

end ActionRegex
