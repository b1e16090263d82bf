import ActionRegex.Proofs.Pattern.Within.Lexing

/-!
# Faults found while reading

A reader that fails marks at least one byte of its own text, with one of the faults that a text can
have without macros and tokens, and it fails in the same way wherever its text stands (`Fails`). So
the items of a pattern and the fault that ends their reading point into the pattern
(`lex_inside`), and a text that is moved is read as before (`lexFrom_move`).
-/

namespace ActionRegex.Pattern

/-! ## Moving -/

/-- An error as many bytes further on. -/
def Error.move (before : Nat) (e : Error) : Error := ⟨e.fault, e.span.move before⟩

/-- A cursor as many bytes further on. -/
def Cursor.move (before : Nat) (cursor : Cursor) : Cursor := ⟨before + cursor.pos, cursor.rest⟩

theorem Cursor.within_nil (before : Nat) (cursor : Cursor) :
    cursor.within before [] = cursor.move before := by
  simp [Cursor.within, Cursor.move]

/-- What is read is read from a text that is moved as well. -/
theorem readEscapedByte_move {start : Nat} {input : Bytes} {b : UInt8} {next : Cursor}
    (h : readEscapedByte start input = .ok (b, next)) (before : Nat) :
    readEscapedByte (before + start) input = .ok (b, next.move before) := by
  have hwithin := readEscapedByte_within h before []
  rwa [List.append_nil, Cursor.within_nil] at hwithin

theorem readBound_move {start : Nat} {cursor next : Cursor} {bound : Option Nat}
    (h : readBound start cursor = .ok (bound, next)) (before : Nat) :
    readBound (before + start) (cursor.move before) = .ok (bound, next.move before) := by
  have hwithin := readBound_within (fun _ => rfl) h before
  rwa [Cursor.within_nil, Cursor.within_nil] at hwithin

/-! ## Going on -/

/-- A cursor further on in the same text. -/
structure Onward (cursor next : Cursor) : Prop where
  le : cursor.pos ≤ next.pos
  stop : next.pos + next.rest.length = cursor.pos + cursor.rest.length

theorem Onward.of_append {cursor next : Cursor} {u : Bytes} (hrest : cursor.rest = u ++ next.rest)
    (hpos : next.pos = cursor.pos + u.length) : Onward cursor next where
  le := by omega
  stop := by rw [hrest, hpos, List.length_append, Nat.add_assoc]

theorem Stand.Reads.onward {inside : Bool} {s t : Stand} {cursor next : Cursor}
    (h : Stand.Reads inside s t cursor next) : Onward cursor next := by
  obtain ⟨u, hu⟩ := h
  exact .of_append hu.rest hu.pos

theorem onward_readBound {start : Nat} {cursor next : Cursor} {bound : Option Nat}
    (h : readBound start cursor = .ok (bound, next)) : Onward cursor next := by
  obtain ⟨digits, hrest, hpos, -⟩ := readBound_eq h
  exact .of_append hrest hpos

/-! ## Failing -/

/-- The faults that a reader finds. The others belong to macros and tokens. -/
def Fault.isLexical : Fault → Bool
  | .unexpectedChar _ | .unexpectedEnd | .unterminatedClass | .emptyClass | .backwardRange _ _
  | .missingBrace | .invalidEscape | .tooManyRepetitions => true
  | _ => false

/-- The failure of a reader, which is a function of how far its text is moved: it marks bytes from
`first` to `last`, at least one, and the same ones wherever the text stands. -/
structure Fails {α : Type} (read : Nat → Except Error α) (first last : Nat) (e : Error) : Prop where
  lexical : e.fault.isLexical = true
  start : first ≤ e.span.start
  marks : e.span.start < e.span.stop
  stop : e.span.stop ≤ last
  moved : ∀ before, read before = .error (e.move before)

variable {first last first' last' : Nat} {e : Error}

/-- A reader fails where a reader that it starts with fails. -/
theorem Fails.lift {α β : Type} {read : Nat → Except Error α} {read' : Nat → Except Error β}
    (h : Fails read first last e) (hfirst : first' ≤ first) (hlast : last ≤ last')
    (hread : ∀ before, read before = .error (e.move before) →
      read' before = .error (e.move before)) : Fails read' first' last' e where
  lexical := h.lexical
  start := Nat.le_trans hfirst h.start
  marks := h.marks
  stop := Nat.le_trans h.stop hlast
  moved before := hread before (h.moved before)

/-- A character is marked up to the end of the text at most, and its first byte always. -/
theorem fails_unexpectedChar (α : Type) (pos : Nat) (b : UInt8) (rest : Bytes) :
    Fails (fun before => (.error (unexpectedChar ⟨before + pos, b :: rest⟩) : Except Error α))
      pos (pos + (b :: rest).length) (unexpectedChar ⟨pos, b :: rest⟩) where
  lexical := rfl
  start := Nat.le_refl pos
  marks := by
    have hsize := Char.utf8Size_pos (Bytes.firstChar (b :: rest))
    simp only [unexpectedChar, List.length_cons]
    omega
  stop := Nat.min_le_right _ _
  moved before := by
    simp only [unexpectedChar, Error.move, Span.move, Except.error.injEq, Error.mk.injEq,
      Span.mk.injEq, true_and]
    omega

/-! ## Escapes and quoted text -/

theorem fails_readEscapedByte {start : Nat} {input : Bytes}
    (h : readEscapedByte start input = .error e) :
    Fails (fun before => readEscapedByte (before + start) input) start (start + 1 + input.length)
      e := by
  unfold readEscapedByte at h
  split at h
  · obtain rfl := Except.error.inj h
    exact ⟨rfl, Nat.le_refl _, Nat.lt_succ_self _, by simp, fun before => rfl⟩
  · next b rest =>
    split_ifs at h with hhigh hn hr ht he hx hc
    · obtain rfl := Except.error.inj h
      refine (fails_unexpectedChar (UInt8 × Cursor) (start + 1) b rest).lift
        (Nat.le_succ start) (Nat.le_refl _) fun before hmoved => ?_
      simp only [readEscapedByte, if_pos hhigh]
      exact hmoved
    · split at h
      · next hi lo rest =>
        split at h
        · simp at h
        · next hdigits =>
          obtain rfl := Except.error.inj h
          refine ⟨rfl, Nat.le_refl _, by simp, by simp only [List.length_cons]; omega,
            fun before => ?_⟩
          simp only [readEscapedByte, if_neg hhigh, if_neg hn, if_neg hr, if_neg ht, if_neg he,
            if_pos hx]
          rfl
      · next hshort =>
        obtain rfl := Except.error.inj h
        refine ⟨rfl, Nat.le_refl _, by simp only; omega,
          by simp only [List.length_cons]; omega, fun before => ?_⟩
        simp only [readEscapedByte, if_neg hhigh, if_neg hn, if_neg hr, if_neg ht, if_neg he,
          if_pos hx, Error.move, Span.move, Nat.add_assoc]
    · split at h
      · obtain rfl := Except.error.inj h
        refine ⟨rfl, Nat.le_refl _, by simp, by simp, fun before => ?_⟩
        simp only [readEscapedByte, if_neg hhigh, if_neg hn, if_neg hr, if_neg ht, if_neg he,
          if_neg hx, if_pos hc]
        rfl
      · simp at h

theorem fails_readEscape {start : Nat} {input : Bytes} (h : readEscape start input = .error e) :
    Fails (fun before => readEscape (before + start) input) start (start + 1 + input.length) e := by
  unfold readEscape at h
  split at h
  · simp at h
  · next hset =>
    split at h
    · simp at h
    · next e' hescape =>
      obtain rfl := Except.error.inj h
      refine (fails_readEscapedByte hescape).lift (Nat.le_refl _) (Nat.le_refl _)
        fun before hmoved => ?_
      simp only [readEscape, hset, hmoved]

theorem fails_readQuoted {delimiter : UInt8} {start : Nat} {cursor : Cursor} {read : Bytes}
    (hstart : start < cursor.pos) (h : readQuoted delimiter start cursor read = .error e) :
    Fails (fun before => readQuoted delimiter (before + start) (cursor.move before) read) start
      (cursor.pos + cursor.rest.length) e := by
  fun_induction readQuoted delimiter start cursor read with
  | case1 cursor read hrest =>
    obtain ⟨pos, _⟩ := cursor
    obtain rfl := hrest
    obtain rfl := Except.error.inj h
    exact ⟨rfl, Nat.le_refl _, hstart, by simp, fun before => by rw [readQuoted]; rfl⟩
  | case2 => simp at h
  | case3 cursor read rest e' hescape hrest hne =>
    obtain ⟨pos, _⟩ := cursor
    obtain rfl := hrest
    obtain rfl := Except.error.inj h
    refine (fails_readEscapedByte hescape).lift (Nat.le_of_lt hstart)
      (by simp only [List.length_cons]; omega) fun before hmoved => ?_
    unfold readQuoted
    simp only [Cursor.move, if_neg hne, if_true]
    split
    · next herror =>
      obtain rfl := Except.error.inj (hmoved.symm.trans herror)
      rfl
    · next hok =>
      rw [hmoved] at hok
      simp at hok
  | case4 cursor read rest value next hescape hrest hne ih =>
    obtain ⟨pos, _⟩ := cursor
    obtain rfl := hrest
    obtain ⟨hle, hstop⟩ := (reads_readEscapedByte .bracketed hescape).onward
    simp only at hstart hle hstop
    refine (ih (by omega) h).lift (Nat.le_refl _) (by simp only [List.length_cons]; omega)
      fun before hmoved => ?_
    have hescaped := readEscapedByte_move hescape before
    unfold readQuoted
    simp only [Cursor.move, if_neg hne, if_true]
    split
    · next herror =>
      rw [hescaped] at herror
      simp at herror
    · next hok =>
      obtain ⟨rfl, rfl⟩ := Prod.mk.inj (Except.ok.inj (hescaped.symm.trans hok))
      exact hmoved
  | case5 cursor read b rest hrest hne hbackslash ih =>
    obtain ⟨pos, _⟩ := cursor
    obtain rfl := hrest
    refine (ih (Nat.lt_succ_of_lt hstart) h).lift (Nat.le_refl _)
      (by simp only [List.length_cons]; omega) fun before hmoved => ?_
    unfold readQuoted
    simp only [Cursor.move, if_neg hne, if_neg hbackslash]
    exact hmoved

/-! ## Classes -/

theorem fails_closeRange {itemStart : Nat} {a b : UInt8} {next : Cursor}
    (hstart : itemStart < next.pos) (h : closeRange itemStart a b next = .error e) :
    Fails (fun before => closeRange (before + itemStart) a b (next.move before)) itemStart next.pos
      e := by
  unfold closeRange at h
  split at h
  · next hlt =>
    obtain rfl := Except.error.inj h
    exact ⟨rfl, Nat.le_refl _, hstart, Nat.le_refl _, fun before => if_pos hlt⟩
  · simp at h

theorem fails_readRange {itemStart : Nat} {a : UInt8} {cursor : Cursor}
    (hstart : itemStart < cursor.pos) (h : readRange itemStart a cursor = .error e) :
    Fails (fun before => readRange (before + itemStart) a (cursor.move before)) itemStart
      (cursor.pos + cursor.rest.length) e := by
  obtain ⟨pos, bytes⟩ := cursor
  simp only at hstart
  unfold readRange at h
  simp only at h
  split at h
  · next minus last rest =>
    split_ifs at h with hrange hlast
    · split at h
      · next e' hescape =>
        obtain rfl := Except.error.inj h
        refine (fails_readEscapedByte hescape).lift (by omega)
          (by simp only [List.length_cons]; omega) fun before hmoved => ?_
        rw [← Nat.add_assoc] at hmoved
        simp only [readRange, Cursor.move, if_pos hrange, if_pos hlast, hmoved]
      · next value next hescape =>
        obtain ⟨hle, hstop⟩ := (reads_readEscapedByte .bracketed hescape).onward
        simp only at hle hstop
        refine (fails_closeRange (by omega) h).lift (Nat.le_refl _)
          (by simp only [List.length_cons]; omega) fun before hmoved => ?_
        have hescaped := readEscapedByte_move hescape before
        rw [← Nat.add_assoc] at hescaped
        simp only [readRange, Cursor.move, if_pos hrange, if_pos hlast, hescaped]
        exact hmoved
    · refine (fails_closeRange (by simp only; omega) h).lift (Nat.le_refl _)
        (by simp only [List.length_cons]; omega) fun before hmoved => ?_
      simp only [readRange, Cursor.move, if_pos hrange, if_neg hlast]
      exact hmoved
  · simp at h

theorem fails_map_readRange {itemStart : Nat} {a : UInt8} {cursor : Cursor}
    (hstart : itemStart < cursor.pos)
    (h : (readRange itemStart a cursor).map (Prod.map some id) =
      (.error e : Except Error (Option ByteSet × Cursor))) :
    Fails (fun before => ((readRange (before + itemStart) a (cursor.move before)).map
        (Prod.map some id) : Except Error (Option ByteSet × Cursor))) itemStart
      (cursor.pos + cursor.rest.length) e := by
  cases hrange : readRange itemStart a cursor with
  | error e' =>
    rw [hrange] at h
    obtain rfl := Except.error.inj h
    refine (fails_readRange hstart hrange).lift (Nat.le_refl _) (Nat.le_refl _)
      fun before hmoved => ?_
    simp only [hmoved]
    rfl
  | ok result => simp [hrange, Except.map] at h

theorem fails_readClassItem {start : Nat} {cursor : Cursor} (hstart : start < cursor.pos)
    (h : readClassItem start cursor = .error e) :
    Fails (fun before => readClassItem (before + start) (cursor.move before)) start
      (cursor.pos + cursor.rest.length) e := by
  obtain ⟨pos, bytes⟩ := cursor
  simp only at hstart
  unfold readClassItem at h
  simp only at h
  split at h
  · obtain rfl := Except.error.inj h
    exact ⟨rfl, Nat.le_refl _, hstart, by simp, fun before => rfl⟩
  · next b rest =>
    split_ifs at h with hbracket hdot hbackslash
    · split at h
      · next e' hescape =>
        obtain rfl := Except.error.inj h
        refine (fails_readEscape hescape).lift (Nat.le_of_lt hstart)
          (by simp only [List.length_cons]; omega) fun before hmoved => ?_
        simp only [readClassItem, Cursor.move, if_neg hbracket, if_neg hdot, if_pos hbackslash,
          hmoved]
      · simp at h
      · next first next hescape =>
        obtain ⟨hle, hstop⟩ := (reads_readEscape .bracketed hescape).onward
        simp only at hle hstop
        refine (fails_map_readRange (by omega) h).lift (Nat.le_of_lt hstart)
          (by simp only [List.length_cons]; omega) fun before hmoved => ?_
        have hwithin : readEscape (before + pos) (rest ++ []) =
            .ok (.inl first, next.within before []) := readEscape_within hescape
        rw [List.append_nil, Cursor.within_nil] at hwithin
        simp only [readClassItem, Cursor.move, if_neg hbracket, if_neg hdot, if_pos hbackslash,
          hwithin]
        exact hmoved
    · refine (fails_map_readRange (by simp only; omega) h).lift (Nat.le_of_lt hstart)
        (by simp only [List.length_cons]; omega) fun before hmoved => ?_
      simp only [readClassItem, Cursor.move, if_neg hbracket, if_neg hdot, if_neg hbackslash]
      exact hmoved

theorem fails_readClassItems {start : Nat} {cursor : Cursor} {set : ByteSet}
    (hstart : start < cursor.pos) (h : readClassItems start cursor set = .error e) :
    Fails (fun before => readClassItems (before + start) (cursor.move before) set) start
      (cursor.pos + cursor.rest.length) e := by
  fun_induction readClassItems start cursor set with
  | case1 cursor set e' hitem =>
    obtain rfl := Except.error.inj h
    refine (fails_readClassItem hstart hitem).lift (Nat.le_refl _) (Nat.le_refl _)
      fun before hmoved => ?_
    exact readClassItems_of_error hmoved set
  | case2 => simp at h
  | case3 cursor set members next hitem ih =>
    obtain ⟨hle, hstop⟩ := (reads_readClassItem hitem).onward
    refine (ih (by omega) h).lift (Nat.le_refl _) (by omega) fun before hmoved => ?_
    have hwithin := readClassItem_within hitem (fun _ _ => rfl) (fun _ _ => rfl) before
    rw [Cursor.within_nil, Cursor.within_nil] at hwithin
    rw [readClassItems_of_some hwithin]
    exact hmoved

theorem fails_closeClass {start : Nat} {set : ByteSet} {next : Cursor} (hstart : start < next.pos)
    (h : closeClass start set next = .error e) :
    Fails (fun before => closeClass (before + start) set (next.move before)) start next.pos e := by
  unfold closeClass at h
  split at h
  · next hempty =>
    obtain rfl := Except.error.inj h
    exact ⟨rfl, Nat.le_refl _, hstart, Nat.le_refl _, fun before => if_pos hempty⟩
  · simp at h

theorem firstItem_move (before start : Nat) (rest : Bytes) :
    firstItem (before + start) rest = (firstItem start rest).move before := by
  unfold firstItem
  split
  · rfl
  · rfl

/-- The first item of a class stands behind the bracket, and nothing of the text is left out. -/
theorem firstItem_pos (start : Nat) (rest : Bytes) : start < (firstItem start rest).pos ∧
    (firstItem start rest).pos + (firstItem start rest).rest.length = start + 1 + rest.length := by
  unfold firstItem
  split
  · next hnegated =>
    cases rest with
    | nil => exact absurd hnegated (by decide)
    | cons b rest =>
      simp only [List.tail_cons, List.length_cons]
      omega
  · simp

theorem fails_readClass {start : Nat} {rest : Bytes} (h : readClass start rest = .error e) :
    Fails (fun before => readClass (before + start) rest) start (start + 1 + rest.length) e := by
  obtain ⟨hfirst, hend⟩ := firstItem_pos start rest
  unfold readClass at h
  split at h
  · next e' hitems =>
    obtain rfl := Except.error.inj h
    refine (fails_readClassItems hfirst hitems).lift (Nat.le_refl _) (Nat.le_of_eq hend)
      fun before hmoved => ?_
    simp only [readClass, firstItem_move, hmoved]
  · next members next hitems =>
    obtain ⟨hle, hstop⟩ := (reads_readClassItems hitems).onward
    refine (fails_closeClass (by omega) h).lift (Nat.le_refl _) (by omega) fun before hmoved => ?_
    have hwithin : readClassItems (before + start) ((firstItem start rest).within before [])
        ByteSet.empty = .ok (members, next.within before []) :=
      readClassItems_within hitems
    rw [Cursor.within_nil, Cursor.within_nil] at hwithin
    simp only [readClass, firstItem_move, hwithin]
    exact hmoved

/-! ## Action blocks and repetitions -/

theorem fails_readAction {start : Nat} {rest : Bytes} (h : readAction start rest = .error e) :
    Fails (fun before => readAction (before + start) rest) start (start + 1 + rest.length) e := by
  unfold readAction at h
  split at h
  · next hlength =>
    obtain rfl := Except.error.inj h
    refine ⟨rfl, Nat.le_refl _, by simp only; omega, Nat.le_refl _, fun before => ?_⟩
    simp only [readAction, hlength, Error.move, Span.move, Nat.add_assoc]
  · simp at h

theorem fails_readBound {start : Nat} {cursor : Cursor} (hstart : start < cursor.pos)
    (h : readBound start cursor = .error e) :
    Fails (fun before => readBound (before + start) (cursor.move before)) start
      (cursor.pos + cursor.rest.length) e := by
  unfold readBound at h
  simp only at h
  split_ifs at h with hempty hlarge
  obtain rfl := Except.error.inj h
  have hdigits := (List.takeWhile_prefix Ascii.isDigit (l := cursor.rest)).length_le
  refine ⟨rfl, Nat.le_refl _, by simp only; omega, by simp only; omega, fun before => ?_⟩
  simp only [readBound, Cursor.move, if_neg hempty, if_neg hlarge, Error.move, Span.move,
    Nat.add_assoc]

theorem fails_readClosingBrace {start : Nat} {item : Item} {cursor : Cursor}
    (hstart : start < cursor.pos) (h : readClosingBrace start item cursor = .error e) :
    Fails (fun before => readClosingBrace (before + start) item (cursor.move before)) start
      (cursor.pos + cursor.rest.length) e := by
  unfold readClosingBrace at h
  split at h
  · simp at h
  · next hbrace =>
    obtain rfl := Except.error.inj h
    exact ⟨rfl, Nat.le_refl _, hstart, Nat.le_add_right _ _, fun before => if_neg hbrace⟩

theorem fails_readRepetition {start : Nat} {rest : Bytes}
    (h : readRepetition start rest = .error e) :
    Fails (fun before => readRepetition (before + start) rest) start (start + 1 + rest.length)
      e := by
  unfold readRepetition at h
  split at h
  · next e' hmin =>
    obtain rfl := Except.error.inj h
    refine (fails_readBound (Nat.lt_succ_self start) hmin).lift (Nat.le_refl _) (Nat.le_refl _)
      fun before hmoved => ?_
    rw [Cursor.move, ← Nat.add_assoc] at hmoved
    simp only [readRepetition, hmoved]
  · next min next hmin =>
    obtain ⟨hle, hstop⟩ := onward_readBound hmin
    simp only at hle hstop
    have hminMoved : ∀ before, readBound (before + start) ⟨before + start + 1, rest⟩ =
        .ok (min, next.move before) := by
      intro before
      have hbound := readBound_move hmin before
      rwa [Cursor.move, ← Nat.add_assoc] at hbound
    split at h
    · next hcomma =>
      have htail : next.rest.length = next.rest.tail.length + 1 := by
        cases hcases : next.rest with
        | nil => simp [hcases] at hcomma
        | cons b rest => rfl
      split at h
      · next e' hmax =>
        obtain rfl := Except.error.inj h
        refine (fails_readBound (by simp only; omega) hmax).lift (Nat.le_refl _)
          (by simp only; omega) fun before hmoved => ?_
        rw [Cursor.move, ← Nat.add_assoc] at hmoved
        simp only [readRepetition, hminMoved, Cursor.move, if_pos hcomma, hmoved]
      · next max next' hmax =>
        obtain ⟨hle', hstop'⟩ := onward_readBound hmax
        simp only at hle' hstop'
        refine (fails_readClosingBrace (by omega) h).lift (Nat.le_refl _) (by omega)
          fun before hmoved => ?_
        have hmaxMoved := readBound_move hmax before
        rw [Cursor.move, ← Nat.add_assoc] at hmaxMoved
        simp only [readRepetition, hminMoved, Cursor.move, if_pos hcomma, hmaxMoved]
        exact hmoved
    · next hcomma =>
      refine (fails_readClosingBrace (by omega) h).lift (Nat.le_refl _) (by omega)
        fun before hmoved => ?_
      simp only [readRepetition, hminMoved, Cursor.move, if_neg hcomma]
      exact hmoved

/-! ## Items -/

theorem fails_readEscapeItem {pos : Nat} {rest : Bytes} (h : readEscapeItem pos rest = .error e) :
    Fails (fun before => readEscapeItem (before + pos) rest) pos (pos + 1 + rest.length) e := by
  unfold readEscapeItem at h
  split at h
  · next e' hescape =>
    obtain rfl := Except.error.inj h
    refine (fails_readEscape hescape).lift (Nat.le_refl _) (Nat.le_refl _) fun before hmoved => ?_
    simp only [readEscapeItem, hmoved]
  · simp at h
  · simp at h

theorem fails_readQuotedItem {pos : Nat} {delimiter : UInt8} {rest : Bytes}
    (h : readQuotedItem pos delimiter rest = .error e) :
    Fails (fun before => readQuotedItem (before + pos) delimiter rest) pos (pos + 1 + rest.length)
      e := by
  unfold readQuotedItem at h
  split at h
  · next e' hquoted =>
    obtain rfl := Except.error.inj h
    refine (fails_readQuoted (Nat.lt_succ_self pos) hquoted).lift (Nat.le_refl _) (Nat.le_refl _)
      fun before hmoved => ?_
    rw [Cursor.move, ← Nat.add_assoc] at hmoved
    simp only [readQuotedItem, hmoved]
  · simp at h

/-- **Where an item can't be read, at least one byte of the text is marked**, and the same ones
wherever the text stands. -/
theorem fails_readItem {pos : Nat} {b : UInt8} {rest : Bytes} (h : readItem pos b rest = .error e) :
    Fails (fun before => readItem (before + pos) b rest) pos (pos + (b :: rest).length) e := by
  have hlength : pos + 1 + rest.length ≤ pos + (b :: rest).length := by
    rw [List.length_cons]
    omega
  unfold readItem at h
  split at h
  · simp at h
  · next hpunctuation =>
    split_ifs at h with hbrace hbounds hbracket hbackslash hquote hletter hliteral
    · refine (fails_readRepetition h).lift (Nat.le_refl _) hlength fun before hmoved => ?_
      simp only [readItem, hpunctuation, if_pos hbrace, if_pos hbounds, hmoved]
    · refine (fails_readAction h).lift (Nat.le_refl _) hlength fun before hmoved => ?_
      simp only [readItem, hpunctuation, if_pos hbrace, if_neg hbounds, hmoved]
    · refine (fails_readClass h).lift (Nat.le_refl _) hlength fun before hmoved => ?_
      simp only [readItem, hpunctuation, if_neg hbrace, if_pos hbracket, hmoved]
    · refine (fails_readEscapeItem h).lift (Nat.le_refl _) hlength fun before hmoved => ?_
      simp only [readItem, hpunctuation, if_neg hbrace, if_neg hbracket, if_pos hbackslash, hmoved]
    · refine (fails_readQuotedItem h).lift (Nat.le_refl _) hlength fun before hmoved => ?_
      simp only [readItem, hpunctuation, if_neg hbrace, if_neg hbracket, if_neg hbackslash,
        if_pos hquote, hmoved]
    · obtain rfl := Except.error.inj h
      refine (fails_unexpectedChar (Item × Cursor) pos b rest).lift (Nat.le_refl _)
        (Nat.le_refl _) fun before hmoved => ?_
      simp only [readItem, hpunctuation, if_neg hbrace, if_neg hbracket, if_neg hbackslash,
        if_neg hquote, if_neg hletter, if_neg hliteral]
      exact hmoved

end ActionRegex.Pattern
