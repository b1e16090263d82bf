import ActionRegex.Proofs.Pattern.SpelledOut

/-!
# Blanks between items

Blanks may be put wherever the reader of a pattern comes to when it looks for an item, be it in
front of one, between blanks or at the end (`Boundary`). The reader then finds the same items and
stops with the same fault (`lex_spaced`): an item has an end of its own, and if it is a name, the
byte behind it or a blank ends it. Where items stand in the text makes no difference to the tokens
that are made of them, so the pattern has the same tree and the same action blocks, or it is refused
for the same fault (`parse_spaced`).
-/

namespace ActionRegex.Pattern

/-! ## Texts with gaps -/

/-- A text that starts at a position, with a gap in front of each byte and at the end. -/
def spaced (gaps : Nat → Bytes) (pos : Nat) : Bytes → Bytes
  | [] => gaps pos
  | b :: rest => gaps pos ++ b :: spaced gaps (pos + 1) rest

/-- The reader comes to a position when it looks for the next item. -/
def Boundary (cursor : Cursor) (k : Nat) : Prop := ∃ items rest, Scans cursor items ⟨k, rest⟩

/-- Gaps of blanks in a text that is read from a cursor on, none of them inside an item. -/
structure Gaps (gaps : Nat → Bytes) (cursor : Cursor) : Prop where
  blank : ∀ k, ∀ b ∈ gaps k, Ascii.isBlank b = true
  boundary : ∀ k, cursor.pos ≤ k → gaps k ≠ [] → Boundary cursor k

variable {gaps : Nat → Bytes}

/-- A text without gaps inside. -/
theorem spaced_append {pos : Nat} {u : Bytes} (h : ∀ k, pos ≤ k → k < pos + u.length → gaps k = [])
    (rest : Bytes) : spaced gaps pos (u ++ rest) = u ++ spaced gaps (pos + u.length) rest := by
  induction u generalizing pos with
  | nil => rfl
  | cons b u ih =>
    have hfirst : gaps pos = [] := by
      refine h pos (Nat.le_refl _) ?_
      rw [List.length_cons]
      omega
    have hrest : ∀ k, pos + 1 ≤ k → k < pos + 1 + u.length → gaps k = [] := by
      intro k hle hlt
      refine h k (by omega) ?_
      rw [List.length_cons]
      omega
    have hlength : pos + (b :: u).length = pos + 1 + u.length := by
      rw [List.length_cons]
      omega
    rw [List.cons_append, spaced, hfirst, List.nil_append, ih hrest, hlength, List.cons_append]

/-- A text without gaps. -/
theorem spaced_eq_self {pos : Nat} (h : ∀ k, pos ≤ k → gaps k = []) (rest : Bytes) :
    spaced gaps pos rest = rest := by
  have happend := spaced_append (u := rest) (fun k hle _ => h k hle) []
  rw [List.append_nil, spaced, h _ (Nat.le_add_right _ _), List.append_nil] at happend
  exact happend

/-! ## Boundaries -/

namespace Boundary

variable {pos k : Nat} {b : UInt8} {rest : Bytes}

/-- Behind a blank the reader goes on. -/
theorem of_blank (h : Boundary ⟨pos, b :: rest⟩ k) (hb : Ascii.isBlank b = true) (hk : pos < k) :
    Boundary ⟨pos + 1, rest⟩ k := by
  obtain ⟨items, rest', hscan⟩ := h
  cases hscan with
  | refl => exact absurd hk (Nat.lt_irrefl _)
  | blank _ hscan => exact ⟨items, rest', hscan⟩
  | item hitem => exact absurd hb (by simp [isBlank_eq_false_of_readItem hitem])

/-- Behind an item the reader goes on. -/
theorem of_item {item : Item} {next : Cursor} (h : Boundary ⟨pos, b :: rest⟩ k)
    (hitem : readItem pos b rest = .ok (item, next)) (hk : pos < k) : Boundary next k := by
  obtain ⟨items, rest', hscan⟩ := h
  cases hscan with
  | refl => exact absurd hk (Nat.lt_irrefl _)
  | blank hb => exact absurd hb (by simp [isBlank_eq_false_of_readItem hitem])
  | item hitem' hscan =>
    obtain ⟨-, rfl⟩ := Prod.mk.inj (Except.ok.inj (hitem.symm.trans hitem'))
    exact ⟨_, rest', hscan⟩

/-- The reader does not come behind an item that can't be read. -/
theorem eq_of_failed {e : Error} (h : Boundary ⟨pos, b :: rest⟩ k)
    (hb : Ascii.isBlank b = false) (hfail : readItem pos b rest = .error e) : k = pos := by
  obtain ⟨items, rest', hscan⟩ := h
  cases hscan with
  | refl => rfl
  | blank hblank => exact absurd (hb.symm.trans hblank) (by decide)
  | item hitem => exact absurd (hfail.symm.trans hitem) (by simp)

theorem pos_le {cursor : Cursor} (h : Boundary cursor k) : cursor.pos ≤ k := by
  obtain ⟨items, rest', hscan⟩ := h
  exact hscan.pos_le

/-- An item of a pattern starts and stops where the reader looks for an item. -/
theorem of_mem_lex {pattern : Bytes} {item : Item} {span : Span}
    (h : (item, span) ∈ (lex pattern).items) :
    Boundary ⟨0, pattern⟩ span.start ∧ Boundary ⟨0, pattern⟩ span.stop := by
  obtain ⟨last, hscan, -⟩ := exists_scans_lex pattern
  obtain ⟨items₁, items₂, b, rest, next, -, hbefore, hitem, hstop, -⟩ := hscan.of_mem h
  refine ⟨⟨items₁, b :: rest, hbefore⟩, ?_⟩
  rw [hstop]
  exact ⟨_, next.rest, hbefore.trans (.item hitem (.refl _))⟩

end Boundary

namespace Gaps

variable {pos : Nat} {b : UInt8} {rest : Bytes}

theorem of_blank (h : Gaps gaps ⟨pos, b :: rest⟩) (hb : Ascii.isBlank b = true) :
    Gaps gaps ⟨pos + 1, rest⟩ := by
  refine ⟨h.blank, ?_⟩
  intro k hk hne
  have hk : pos + 1 ≤ k := hk
  exact (h.boundary k (Nat.le_of_succ_le hk) hne).of_blank hb hk

theorem of_item {item : Item} {next : Cursor} (h : Gaps gaps ⟨pos, b :: rest⟩)
    (hitem : readItem pos b rest = .ok (item, next)) : Gaps gaps next := by
  refine ⟨h.blank, ?_⟩
  intro k hk hne
  have hlt := Nat.lt_of_lt_of_le (pos_lt_of_readItem hitem) hk
  exact (h.boundary k (Nat.le_of_lt hlt) hne).of_item hitem hlt

/-- There is no gap inside an item. -/
theorem eq_nil_inside {item : Item} {next : Cursor} (h : Gaps gaps ⟨pos, b :: rest⟩)
    (hitem : readItem pos b rest = .ok (item, next)) {k : Nat} (hpos : pos < k)
    (hnext : k < next.pos) : gaps k = [] := by
  by_contra hne
  have hbehind := (h.boundary k (Nat.le_of_lt hpos) hne).of_item hitem hpos
  exact Nat.not_lt.mpr hbehind.pos_le hnext

/-- There is no gap behind the start of an item that can't be read. -/
theorem eq_nil_of_failed {e : Error} (h : Gaps gaps ⟨pos, b :: rest⟩)
    (hb : Ascii.isBlank b = false) (hfail : readItem pos b rest = .error e) {k : Nat}
    (hpos : pos < k) : gaps k = [] := by
  by_contra hne
  have heq := (h.boundary k (Nat.le_of_lt hpos) hne).eq_of_failed hb hfail
  exact Nat.ne_of_gt hpos heq

end Gaps

/-! ## Reading -/

/-- What is behind an item is the end of the text. -/
theorem exists_append_of_readItem {pos stop : Nat} {b : UInt8} {rest after : Bytes} {item : Item}
    (h : readItem pos b rest = .ok (item, ⟨stop, after⟩)) :
    ∃ u, rest = u ++ after ∧ pos + 1 + u.length = stop := by
  have hlt : pos < stop := pos_lt_of_readItem h
  obtain ⟨u, hu⟩ := reads_readItem h
  have htext : b :: rest = u ++ after := hu.rest
  have hstop : stop = pos + u.length := hu.pos
  cases u with
  | nil =>
    rw [List.length_nil] at hstop
    omega
  | cons c u =>
    rw [List.length_cons] at hstop
    exact ⟨u, (List.cons.inj htext).2, by omega⟩

/-- Reading goes over blanks. -/
theorem scans_blanks {blanks : Bytes} (h : ∀ b ∈ blanks, Ascii.isBlank b = true) (pos : Nat)
    (rest : Bytes) : Scans ⟨pos, blanks ++ rest⟩ [] ⟨pos + blanks.length, rest⟩ := by
  induction blanks generalizing pos with
  | nil => exact .refl _
  | cons b blanks ih =>
    obtain ⟨hb, hblanks⟩ := List.forall_mem_cons.mp h
    have hlength : pos + (b :: blanks).length = pos + 1 + blanks.length := by
      rw [List.length_cons]
      omega
    rw [hlength]
    exact .blank hb (ih hblanks (pos + 1))

/-- Reading goes over the gap in front of a byte. -/
theorem scans_gap {pos : Nat} {b : UInt8} {rest : Bytes} (h : Gaps gaps ⟨pos, b :: rest⟩)
    (before : Nat) : Scans ⟨before + pos, spaced gaps pos (b :: rest)⟩ []
      ⟨before + (gaps pos).length + pos, b :: spaced gaps (pos + 1) rest⟩ := by
  have hpos : before + (gaps pos).length + pos = before + pos + (gaps pos).length := by omega
  rw [hpos]
  exact scans_blanks (h.blank pos) _ _

/-- **The text behind an item may change**, if the byte behind it stays or something comes that does
not go on with a name. -/
theorem readItem_replace {pos stop : Nat} {b : UInt8} {u kept gone after : Bytes} {item : Item}
    (h : readItem pos b (u ++ (kept ++ gone)) = .ok (item, ⟨stop, kept ++ gone⟩))
    (hafter : kept = [] → Closes after) (before : Nat) :
    readItem (before + pos) b (u ++ (kept ++ after)) =
      .ok (item, ⟨before + stop, kept ++ after⟩) := by
  have hcut := readItem_cut h (n := gone.length) (by simp)
  rw [Cursor.cut, ← List.append_assoc, List.rdrop_append_length, List.rdrop_append_length] at hcut
  have hwithin : readItem (before + pos) b ((u ++ kept) ++ after) =
      .ok (item, Cursor.within before after ⟨stop, kept⟩) := readItem_within hafter hcut
  rwa [List.append_assoc] at hwithin

/-- Behind an item the next byte stays, or there is a blank or the end of the text. -/
theorem exists_kept (hblank : ∀ k, ∀ b ∈ gaps k, Ascii.isBlank b = true) (pos : Nat)
    (rest : Bytes) : ∃ kept gone after, rest = kept ++ gone ∧
      spaced gaps pos rest = kept ++ after ∧ (kept = [] → Closes after) := by
  cases hgap : gaps pos with
  | cons b blanks =>
    have hb : Ascii.isBlank b = true := hblank pos b (by rw [hgap]; exact List.mem_cons_self)
    have hclosed : ∀ text, Closes (gaps pos ++ text) := by
      intro text
      rw [hgap]
      exact closes_blank hb _
    refine ⟨[], rest, spaced gaps pos rest, rfl, rfl, fun _ => ?_⟩
    cases rest with
    | nil =>
      rw [spaced, ← List.append_nil (gaps pos)]
      exact hclosed []
    | cons c rest => exact hclosed _
  | nil =>
    cases rest with
    | nil => exact ⟨[], [], [], rfl, hgap, fun _ => closes_nil⟩
    | cons c rest =>
      refine ⟨[c], rest, spaced gaps (pos + 1) rest, rfl, ?_, by simp⟩
      rw [spaced, hgap]
      rfl

/-- **The items of a text with gaps** are those of the text. -/
theorem Scans.spaced {cursor last : Cursor} {items : List (Item × Span)}
    (h : Scans cursor items last) (hgaps : Gaps gaps cursor) (before : Nat) :
    ∃ items' before', SameItems items items' ∧ Gaps gaps last ∧
      Scans ⟨before + cursor.pos, spaced gaps cursor.pos cursor.rest⟩ items'
        ⟨before' + last.pos, spaced gaps last.pos last.rest⟩ := by
  induction h generalizing before with
  | refl cursor => exact ⟨[], before, .nil, hgaps, .refl _⟩
  | @blank pos b rest items last hb _ ih =>
    obtain ⟨items', before', hitems, hlast, hscan⟩ :=
      ih (hgaps.of_blank hb) (before + (gaps pos).length)
    exact ⟨items', before', hitems, hlast, (scans_gap hgaps before).trans (.blank hb hscan)⟩
  | @item pos b rest item next items last hitem _ ih =>
    obtain ⟨stop, after⟩ := next
    obtain ⟨u, htext, hstop⟩ := exists_append_of_readItem hitem
    obtain ⟨items', before', hitems, hlast, hscan⟩ :=
      ih (hgaps.of_item hitem) (before + (gaps pos).length)
    obtain ⟨kept, gone, behind, hafter, hspaced, hclosed⟩ := exists_kept hgaps.blank stop after
    have hinside : ∀ k, pos + 1 ≤ k → k < pos + 1 + u.length → gaps k = [] := by
      intro k hle hltk
      exact hgaps.eq_nil_inside hitem hle (hstop ▸ hltk)
    have hspacedItem : Pattern.spaced gaps (pos + 1) rest =
        u ++ Pattern.spaced gaps stop after := by
      rw [htext, spaced_append hinside, hstop]
    have hread : readItem (before + (gaps pos).length + pos) b
        (Pattern.spaced gaps (pos + 1) rest) = .ok (item,
          ⟨before + (gaps pos).length + stop, Pattern.spaced gaps stop after⟩) := by
      rw [hspacedItem, hspaced]
      rw [htext, hafter] at hitem
      exact readItem_replace hitem hclosed _
    have hwhole := (scans_gap hgaps before).trans (.item hread hscan)
    exact ⟨_, before', .cons (by rfl) hitems, hlast, hwhole⟩

/-- **The end of a text with gaps**, or its fault, is that of the text. -/
theorem Stops.spaced {last : Cursor} {error : Option Error} (h : Stops last error)
    (hgaps : Gaps gaps last) (before : Nat) :
    ∃ last' error', Scans ⟨before + last.pos, spaced gaps last.pos last.rest⟩ [] last' ∧
      Stops last' error' ∧ error'.map Error.fault = error.map Error.fault := by
  cases h with
  | ended pos =>
    have hscan := scans_blanks (hgaps.blank pos) (before + pos) []
    rw [List.append_nil] at hscan
    exact ⟨_, none, hscan, .ended _, rfl⟩
  | @failed pos b rest e hb hfail =>
    have hrest : Pattern.spaced gaps (pos + 1) rest = rest :=
      spaced_eq_self (fun k hle => hgaps.eq_nil_of_failed hb hfail hle) rest
    have hgap := scans_gap hgaps before
    rw [hrest] at hgap
    exact ⟨_, _, hgap, .failed hb ((fails_readItem hfail).moved _), rfl⟩

/-- **A text with gaps has the same items and the same fault.** -/
theorem lex_spaced {pattern : Bytes} (hgaps : Gaps gaps ⟨0, pattern⟩) :
    SameItems (lex pattern).items (lex (spaced gaps 0 pattern)).items ∧
      (lex (spaced gaps 0 pattern)).error.map Error.fault =
        (lex pattern).error.map Error.fault := by
  obtain ⟨last, hscan, hstop⟩ := exists_scans_lex pattern
  obtain ⟨items', before, hitems, hlast, hscan'⟩ := hscan.spaced hgaps 0
  obtain ⟨last', error', hend, hstop', herror⟩ := hstop.spaced hlast before
  have hlex : lex (spaced gaps 0 pattern) = ⟨items' ++ [], error'⟩ :=
    (hscan'.trans hend).lexFrom_eq hstop' []
  rw [hlex, List.append_nil]
  exact ⟨hitems, herror⟩

/-! ## Parsing -/

/-- **Blanks between items make no difference.** A pattern with blanks wherever the reader looks for
an item has the same tree, or is refused for the same fault, and it has the same action blocks. -/
theorem parse_spaced (macros : Macros) {pattern : Bytes} (hgaps : Gaps gaps ⟨0, pattern⟩)
    (registry : Registry) :
    SameResult (parse macros pattern registry)
      (parse macros (spaced gaps 0 pattern) registry) := by
  obtain ⟨hitems, hfault⟩ := lex_spaced hgaps
  rw [parse_eq_treeOfExpanded, parse_eq_treeOfExpanded, tokenize, tokenize]
  refine sameResult_of_mirrors (mirrors_expand none .nil rfl hitems hfault) ?_
  intro s hs
  have hempty : Linked Stream.empty.tokens := trivial
  exact linked_expand hempty hs

/-- The pattern `m{1,2}|(\n{x y})?`, with an escape. -/
def narrowPattern : Bytes :=
  [109, 123, 49, 44, 50, 125, 124, 40, 92, 110, 123, 120, 32, 121, 125, 41, 63]

/-- Blanks in front of the name, of the two repetitions, of the escape and of the action block, and
at the end. -/
def wideGaps : Nat → Bytes
  | 0 => [32]
  | 1 => [9]
  | 8 => [13, 10]
  | 10 => [10]
  | 16 => [32]
  | 17 => [32, 9]
  | _ => []

theorem lex_narrowPattern : lex narrowPattern =
    ⟨[(.name [109], ⟨0, 1⟩), (.repetition 1 (some 2), ⟨1, 6⟩), (.bar, ⟨6, 7⟩), (.opening, ⟨7, 8⟩),
      (.byte 10, ⟨8, 10⟩), (.action [120, 32, 121], ⟨10, 15⟩), (.closing, ⟨15, 16⟩),
      (.repetition 0 (some 1), ⟨16, 17⟩)], none⟩ :=
  Lexed.lex_eq <| .item rfl <| .item rfl <| .item rfl <| .item rfl <| .item rfl <| .item rfl <|
    .item rfl <| .item rfl <| .ended _

theorem gaps_wideGaps : Gaps wideGaps ⟨0, narrowPattern⟩ := by
  have hname : (.name [109], ⟨0, 1⟩) ∈ (lex narrowPattern).items := by simp [lex_narrowPattern]
  have hescape : (.byte 10, ⟨8, 10⟩) ∈ (lex narrowPattern).items := by simp [lex_narrowPattern]
  have hlast : (.repetition 0 (some 1), ⟨16, 17⟩) ∈ (lex narrowPattern).items := by
    simp [lex_narrowPattern]
  refine ⟨?_, ?_⟩
  · intro k
    unfold wideGaps
    split <;> simp [Ascii.isBlank, Ascii.space, Ascii.tab, Ascii.carriageReturn, Ascii.newline]
  · intro k _ hne
    unfold wideGaps at hne
    split at hne
    · exact (Boundary.of_mem_lex hname).1
    · exact (Boundary.of_mem_lex hname).2
    · exact (Boundary.of_mem_lex hescape).1
    · exact (Boundary.of_mem_lex hescape).2
    · exact (Boundary.of_mem_lex hlast).1
    · exact (Boundary.of_mem_lex hlast).2
    · exact absurd rfl hne

/-- The tree of `m{1,2}|(\n{x y})?`, if `m` is a choice between two bytes. -/
def narrowTree : Tree :=
  let choice : Tree := .alternate (.byte 97) (.byte 98)
  .alternate (.alternate choice (.concat choice choice))
    (.alternate .empty (.concat (.byte 10) (.action 0)))

/-- The pattern `m{1,2}|(\n{x y})?` with blanks, for a macro `m` with a choice. -/
theorem parse_spaced_narrowPattern :
    Gaps wideGaps ⟨0, narrowPattern⟩ ∧
    SameResult (parse [([109], [97, 124, 98])] narrowPattern .empty)
      (parse [([109], [97, 124, 98])] (spaced wideGaps 0 narrowPattern) .empty) ∧
    spaced wideGaps 0 narrowPattern = [32, 109, 9, 123, 49, 44, 50, 125, 124, 40, 13, 10, 92, 110, 10,
      123, 120, 32, 121, 125, 41, 32, 63, 32, 9] ∧
    (parse [([109], [97, 124, 98])] narrowPattern .empty).1 = .ok narrowTree ∧
    (parse [([109], [97, 124, 98])] narrowPattern .empty).2.toList = [[120, 32, 121]] := by
  have hparse : parse [([109], [97, 124, 98])] narrowPattern .empty =
      (.ok narrowTree, ⟨#[[120, 32, 121]], []⟩) := by
    rw [parse, tokenize, lex_narrowPattern]
    cbv
  refine ⟨gaps_wideGaps, parse_spaced _ gaps_wideGaps .empty, by decide, ?_⟩
  rw [hparse]
  exact ⟨rfl, rfl⟩

end ActionRegex.Pattern
