import ActionRegex.Proofs.Pattern.Faults

/-!
# Reading up to a place

`Scans cursor items last` says that reading goes from one cursor to another and gives some items on
the way; it is composed of its parts, and what ends the reading of a pattern is said apart from it
(`Stops`). A reading does not depend on where its text stands (`lexFrom_move`), its items and its
fault are inside the text (`span_of_mem_lex`, `span_of_error_lex`), and at any place in between, an
item ends there or goes across it (`Scans.meets`).
-/

namespace ActionRegex.Pattern

/-- Reading goes from one cursor to another and gives some items. -/
inductive Scans : Cursor → List (Item × Span) → Cursor → Prop
  | refl (cursor : Cursor) : Scans cursor [] cursor
  | blank {pos : Nat} {b : UInt8} {rest : Bytes} {items : List (Item × Span)} {last : Cursor}
    (hb : Ascii.isBlank b = true) (h : Scans ⟨pos + 1, rest⟩ items last) :
    Scans ⟨pos, b :: rest⟩ items last
  | item {pos : Nat} {b : UInt8} {rest : Bytes} {item : Item} {next : Cursor}
    {items : List (Item × Span)} {last : Cursor} (hitem : readItem pos b rest = .ok (item, next))
    (h : Scans next items last) : Scans ⟨pos, b :: rest⟩ ((item, ⟨pos, next.pos⟩) :: items) last

/-- Reading ends at a cursor: at the end of the text, or with a fault. -/
inductive Stops : Cursor → Option Error → Prop
  | ended (pos : Nat) : Stops ⟨pos, []⟩ none
  | failed {pos : Nat} {b : UInt8} {rest : Bytes} {e : Error} (hb : Ascii.isBlank b = false)
    (h : readItem pos b rest = .error e) : Stops ⟨pos, b :: rest⟩ (some e)

variable {cursor middle last : Cursor} {items items' : List (Item × Span)} {error : Option Error}

/-! ## Readings as parts -/

theorem Scans.trans (h : Scans cursor items middle) (h' : Scans middle items' last) :
    Scans cursor (items ++ items') last := by
  induction h with
  | refl => exact h'
  | blank hb _ ih => exact .blank hb (ih h')
  | item hitem _ ih => exact .item hitem (ih h')

theorem Scans.lexFrom_eq (h : Scans cursor items last) (hstop : Stops last error)
    (read : List (Item × Span)) : lexFrom cursor read = ⟨read.reverse ++ items, error⟩ := by
  induction h generalizing read with
  | refl cursor =>
    rw [List.append_nil]
    cases hstop with
    | ended pos => rw [lexFrom]
    | failed hb hfail => exact lexFrom_of_error hb hfail read
  | blank hb _ ih => rw [lexFrom_of_isBlank hb, ih hstop]
  | item hitem _ ih =>
    rw [lexFrom_of_readItem hitem, ih hstop, List.reverse_cons, List.append_assoc,
      List.singleton_append]

theorem exists_scans_lexFrom (cursor : Cursor) (read : List (Item × Span)) :
    ∃ items last error, Scans cursor items last ∧ Stops last error ∧
      lexFrom cursor read = ⟨read.reverse ++ items, error⟩ := by
  fun_induction lexFrom cursor read with
  | case1 cursor read hrest =>
    obtain ⟨pos, _⟩ := cursor
    obtain rfl := hrest
    exact ⟨[], _, none, .refl _, .ended pos, by rw [List.append_nil]⟩
  | case2 cursor read b rest hrest hblank ih =>
    obtain ⟨pos, _⟩ := cursor
    obtain rfl := hrest
    obtain ⟨items, last, error, hscan, hstop, heq⟩ := ih
    exact ⟨items, last, error, .blank hblank hscan, hstop, heq⟩
  | case3 cursor read b rest hrest hblank e herror =>
    obtain ⟨pos, _⟩ := cursor
    obtain rfl := hrest
    have hb : Ascii.isBlank b = false := by simpa using hblank
    exact ⟨[], _, some e, .refl _, .failed hb herror, by rw [List.append_nil]⟩
  | case4 cursor read b rest hrest hblank item next hitem ih =>
    obtain ⟨pos, _⟩ := cursor
    obtain rfl := hrest
    obtain ⟨items, last, error, hscan, hstop, heq⟩ := ih
    refine ⟨(item, ⟨pos, next.pos⟩) :: items, last, error, .item hitem hscan, hstop, ?_⟩
    rw [heq, List.reverse_cons, List.append_assoc, List.singleton_append]

theorem lexFrom_eq_append (cursor : Cursor) (read : List (Item × Span)) :
    lexFrom cursor read =
      ⟨read.reverse ++ (lexFrom cursor []).items, (lexFrom cursor []).error⟩ := by
  obtain ⟨items, last, error, hscan, hstop, heq⟩ := exists_scans_lexFrom cursor []
  rw [hscan.lexFrom_eq hstop read, heq]
  rfl

theorem exists_scans_lex (pattern : Bytes) : ∃ last, Scans ⟨0, pattern⟩ (lex pattern).items last ∧
    Stops last (lex pattern).error := by
  obtain ⟨items, last, error, hscan, hstop, heq⟩ := exists_scans_lexFrom ⟨0, pattern⟩ []
  rw [lex, heq]
  exact ⟨last, hscan, hstop⟩

/-- Reading goes on where a reading has led to. -/
theorem Scans.lexFrom_eq_lexFrom (h : Scans cursor items middle) (read : List (Item × Span)) :
    lexFrom cursor read = lexFrom middle (items.reverse ++ read) := by
  obtain ⟨items', last, error, hscan, hstop, heq⟩ :=
    exists_scans_lexFrom middle (items.reverse ++ read)
  rw [heq, (h.trans hscan).lexFrom_eq hstop, List.reverse_append, List.reverse_reverse,
    List.append_assoc]

/-- A reading is split in front of each of its items. -/
theorem Scans.of_mem {item : Item} {span : Span} (h : Scans cursor items last)
    (hmem : (item, span) ∈ items) : ∃ items₁ items₂ b rest next,
      items = items₁ ++ (item, span) :: items₂ ∧ Scans cursor items₁ ⟨span.start, b :: rest⟩ ∧
      readItem span.start b rest = .ok (item, next) ∧ span.stop = next.pos ∧
      Scans next items₂ last := by
  induction h with
  | refl => exact absurd hmem List.not_mem_nil
  | blank hb _ ih =>
    obtain ⟨items₁, items₂, b', rest', next, rfl, hscan, hread, hstop, hlast⟩ := ih hmem
    exact ⟨items₁, items₂, b', rest', next, rfl, .blank hb hscan, hread, hstop, hlast⟩
  | @item pos b rest first next items last hitem hrest ih =>
    rcases List.mem_cons.mp hmem with heq | hmem
    · obtain ⟨rfl, rfl⟩ := Prod.mk.inj heq
      exact ⟨[], items, b, rest, next, rfl, .refl _, hitem, rfl, hrest⟩
    · obtain ⟨items₁, items₂, b', rest', next', rfl, hscan, hread, hstop, hlast⟩ := ih hmem
      exact ⟨_ :: items₁, items₂, b', rest', next', rfl, .item hitem hscan, hread, hstop, hlast⟩

/-! ## Whole texts -/

theorem Lexed.scans (h : Lexed cursor items) :
    Scans cursor items ⟨cursor.pos + cursor.rest.length, []⟩ := by
  induction h with
  | ended pos => exact .refl _
  | @blank pos b rest items hb _ ih =>
    refine .blank hb ?_
    have hpos : pos + (b :: rest).length = pos + 1 + rest.length := by
      rw [List.length_cons]
      omega
    rwa [hpos]
  | item hitem _ ih =>
    refine .item hitem ?_
    rwa [← pos_add_length_of_readItem hitem]

theorem Scans.lexed {pos : Nat} (h : Scans cursor items ⟨pos, []⟩) : Lexed cursor items := by
  generalize hlast : (⟨pos, []⟩ : Cursor) = last at h
  induction h with
  | refl cursor =>
    subst hlast
    exact .ended pos
  | blank hb _ ih => exact .blank hb (ih hlast)
  | item hitem _ ih => exact .item hitem (ih hlast)

/-- **A whole text is read in the same way inside a longer one**, also if what follows can't be
read to its end. -/
theorem Lexed.scans_within {after : Bytes} (hafter : Closes after) (h : Lexed cursor items)
    (before : Nat) : Scans (cursor.within before after) (items.map (moveItem before))
      ⟨before + (cursor.pos + cursor.rest.length), after⟩ := by
  induction h with
  | ended pos => exact .refl _
  | @blank pos b rest items hb _ ih =>
    refine .blank hb ?_
    have hpos : pos + (b :: rest).length = pos + 1 + rest.length := by
      rw [List.length_cons]
      omega
    rwa [hpos]
  | @item pos b rest item next items hitem _ ih =>
    refine .item (readItem_within (fun _ => hafter) hitem) ?_
    rwa [← pos_add_length_of_readItem hitem]

/-! ## Moved texts -/

theorem readItem_move {pos : Nat} {b : UInt8} {rest : Bytes} {item : Item} {next : Cursor}
    (h : readItem pos b rest = .ok (item, next)) (before : Nat) :
    readItem (before + pos) b rest = .ok (item, next.move before) := by
  have hwithin : readItem (before + pos) b (rest ++ []) = .ok (item, next.within before []) :=
    readItem_within (fun _ => closes_nil) h
  rwa [List.append_nil, Cursor.within_nil] at hwithin

theorem Scans.move (h : Scans cursor items last) (before : Nat) :
    Scans (cursor.move before) (items.map (moveItem before)) (last.move before) := by
  induction h with
  | refl cursor => exact .refl _
  | blank hb _ ih => exact .blank hb ih
  | item hitem _ ih => exact .item (readItem_move hitem before) ih

theorem Stops.move (h : Stops last error) (before : Nat) :
    Stops (last.move before) (error.map (Error.move before)) := by
  cases h with
  | ended pos => exact .ended _
  | failed hb hfail => exact .failed hb ((fails_readItem hfail).moved before)

/-- **A text that is moved is read as before.** -/
theorem lexFrom_move (before : Nat) (text : Bytes) (read : List (Item × Span)) :
    lexFrom ⟨before, text⟩ read = ⟨read.reverse ++ (lex text).items.map (moveItem before),
      (lex text).error.map (Error.move before)⟩ := by
  obtain ⟨last, hscan, hstop⟩ := exists_scans_lex text
  exact (hscan.move before).lexFrom_eq (hstop.move before) read

/-! ## Spans -/

theorem Scans.length_eq (h : Scans cursor items last) :
    last.pos + last.rest.length = cursor.pos + cursor.rest.length := by
  induction h with
  | refl => rfl
  | blank _ _ ih =>
    rw [ih]
    simp only [List.length_cons]
    omega
  | item hitem _ ih => rw [ih, pos_add_length_of_readItem hitem]

theorem Scans.pos_le (h : Scans cursor items last) : cursor.pos ≤ last.pos := by
  induction h with
  | refl => exact Nat.le_refl _
  | blank _ _ ih => exact Nat.le_of_succ_le ih
  | item hitem _ ih => exact Nat.le_trans (Nat.le_of_lt (pos_lt_of_readItem hitem)) ih

/-- What is left is the end of the text. -/
theorem Scans.exists_append (h : Scans cursor items last) :
    ∃ u, cursor.rest = u ++ last.rest ∧ last.pos = cursor.pos + u.length := by
  induction h with
  | refl => exact ⟨[], rfl, rfl⟩
  | @blank pos b rest items last _ _ ih =>
    obtain ⟨u, hrest, hpos⟩ := ih
    refine ⟨b :: u, congrArg (b :: ·) hrest, ?_⟩
    rw [hpos, List.length_cons, Nat.add_comm u.length, ← Nat.add_assoc]
  | @item pos b rest item next items last hitem _ ih =>
    obtain ⟨u, hu⟩ := reads_readItem hitem
    obtain ⟨v, hrest, hpos⟩ := ih
    refine ⟨u ++ v, ?_, ?_⟩
    · rw [hu.rest, hrest, List.append_assoc]
    · rw [hpos, hu.pos, List.length_append, Nat.add_assoc]

/-- An item has at least one byte, and it lies between the ends of the reading. -/
theorem Scans.span_of_mem {item : Item} {span : Span} (h : Scans cursor items last)
    (hmem : (item, span) ∈ items) :
    cursor.pos ≤ span.start ∧ span.start < span.stop ∧ span.stop ≤ last.pos := by
  obtain ⟨items₁, items₂, b, rest, next, -, hscan, hread, hstop, hlast⟩ := h.of_mem hmem
  rw [hstop]
  exact ⟨hscan.pos_le, pos_lt_of_readItem hread, hlast.pos_le⟩

/-- **The items of a pattern are inside of it.** -/
theorem span_of_mem_lex {pattern : Bytes} {item : Item} {span : Span}
    (h : (item, span) ∈ (lex pattern).items) :
    span.start < span.stop ∧ span.stop ≤ pattern.length := by
  obtain ⟨last, hscan, -⟩ := exists_scans_lex pattern
  obtain ⟨-, hlt, hle⟩ := hscan.span_of_mem h
  have hlength : last.pos + last.rest.length = pattern.length := by
    simpa using hscan.length_eq
  exact ⟨hlt, by omega⟩

/-- **The fault that ends the reading of a pattern is inside of it**, and one of those that a text
has without macros and tokens. -/
theorem span_of_error_lex {pattern : Bytes} {e : Error} (h : (lex pattern).error = some e) :
    e.fault.isLexical = true ∧ e.span.start < e.span.stop ∧ e.span.stop ≤ pattern.length := by
  obtain ⟨last, hscan, hstop⟩ := exists_scans_lex pattern
  have hlength : last.pos + last.rest.length = pattern.length := by
    simpa using hscan.length_eq
  rw [h] at hstop
  cases hstop with
  | failed hb hfail =>
    have hfails := fails_readItem hfail
    exact ⟨hfails.lexical, hfails.marks, hlength ▸ hfails.stop⟩

/-! ## A place in the text -/

/-- Of two ways to split a text, the one with the shorter first part. -/
theorem exists_append_of_length_le {l r l' r' : Bytes} (h : l ++ r = l' ++ r')
    (hle : l.length ≤ l'.length) : ∃ middle, l' = l ++ middle ∧ r = middle ++ r' := by
  rcases List.append_eq_append_iff.mp h with ⟨middle, hl, hr⟩ | ⟨middle, hl, hr⟩
  · exact ⟨middle, hl, hr⟩
  · rw [hl, List.length_append] at hle
    obtain rfl : middle = [] := List.eq_nil_of_length_eq_zero (by omega)
    exact ⟨[], by simpa using hl.symm, by simpa using hr.symm⟩

/-- How the items of a text meet a place in it: an item ends before the place and the next one
begins behind it, or an item goes across it. -/
inductive Meets (cursor : Cursor) (front after : Bytes) (last : Cursor) :
    List (Item × Span) → Prop
  | between {items items' : List (Item × Span)}
    (h : Scans cursor items ⟨cursor.pos + front.length, after⟩)
    (h' : Scans ⟨cursor.pos + front.length, after⟩ items' last) :
    Meets cursor front after last (items ++ items')
  | across {items items' : List (Item × Span)} {start : Nat} {b : UInt8} {rest : Bytes} {item : Item}
    {next : Cursor} (h : Scans cursor items ⟨start, b :: rest⟩)
    (hread : readItem start b rest = .ok (item, next))
    (hstart : start < cursor.pos + front.length) (hnext : cursor.pos + front.length < next.pos)
    (h' : Scans next items' last) :
    Meets cursor front after last (items ++ (item, ⟨start, next.pos⟩) :: items')

/-- At the start of a text nothing is read before the place. -/
theorem Scans.meets_nil {pos : Nat} {after : Bytes} {last : Cursor} {items : List (Item × Span)}
    (h : Scans ⟨pos, after⟩ items last) : Meets ⟨pos, after⟩ [] after last items := by
  have hnil : Scans ⟨pos, after⟩ [] ⟨pos + ([] : Bytes).length, after⟩ := .refl _
  exact .between hnil h

theorem Meets.append {cursor middle last : Cursor} {front front' after : Bytes}
    {items items' : List (Item × Span)} (h : Scans cursor items middle)
    (hpos : middle.pos + front'.length = cursor.pos + front.length)
    (h' : Meets middle front' after last items') :
    Meets cursor front after last (items ++ items') := by
  cases h' with
  | between hfront hafter =>
    rw [hpos] at hfront hafter
    rw [← List.append_assoc]
    exact .between (h.trans hfront) hafter
  | across hfront hread hstart hnext hafter =>
    rw [hpos] at hstart hnext
    rw [← List.append_assoc]
    exact .across (h.trans hfront) hread hstart hnext hafter

theorem Scans.meets {cursor last : Cursor} {items : List (Item × Span)}
    (h : Scans cursor items last) {front after : Bytes} (hrest : cursor.rest = front ++ after)
    (hlast : cursor.pos + front.length ≤ last.pos) : Meets cursor front after last items := by
  induction h generalizing front with
  | refl cursor =>
    obtain rfl : front = [] := List.eq_nil_of_length_eq_zero (by omega)
    obtain ⟨pos, rest⟩ := cursor
    obtain rfl : rest = after := hrest
    exact (Scans.refl _).meets_nil
  | @blank pos b rest items last hb h ih =>
    cases front with
    | nil =>
      obtain rfl : b :: rest = after := hrest
      exact (h.blank hb).meets_nil
    | cons c front =>
      obtain ⟨-, hfront⟩ := List.cons.inj hrest
      have hlength : pos + 1 + front.length = pos + (c :: front).length := by
        rw [List.length_cons]
        omega
      exact (ih hfront (hlength.trans_le hlast)).append (.blank hb (.refl _)) hlength
  | @item pos b rest item next items last hread h ih =>
    cases front with
    | nil =>
      obtain rfl : b :: rest = after := hrest
      exact (Scans.item hread h).meets_nil
    | cons c front =>
      obtain ⟨u, hu⟩ := reads_readItem hread
      have hurest : b :: rest = u ++ next.rest := hu.rest
      have hupos : next.pos = pos + u.length := hu.pos
      by_cases hnext : next.pos ≤ pos + (c :: front).length
      · have htext : u ++ next.rest = (c :: front) ++ after := hurest.symm.trans hrest
        obtain ⟨front', hfront, hnextRest⟩ := exists_append_of_length_le htext (by omega)
        have hlength : next.pos + front'.length = pos + (c :: front).length := by
          rw [hfront, List.length_append]
          omega
        exact (ih hnextRest (hlength.trans_le hlast)).append (.item hread (.refl _)) hlength
      · have hpos := pos_add_length_of_readItem hread
        exact .across (.refl _) hread (by simp) (Nat.not_le.mp hnext) h

end ActionRegex.Pattern
