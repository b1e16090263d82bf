import ActionRegex.Proofs.Pattern.Levels
import ActionRegex.Proofs.Pattern.RepetitionTexts
import ActionRegex.Proofs.Pattern.TokenFaults
import ActionRegex.Proofs.Pattern.Within.Cutting

/-!
# Faults of repeated groups

What is wrong with a text is still wrong when the text stands in parentheses with a repetition
behind it (`parses_of_repeated`), although the tokens of the group are copied or even dropped before
they are put in order. Either the text is read as it is read alone, or an item goes across the
parenthesis that closes the group, which then has no pair (`ReadsGroup`). In the first case the
tokens between the parentheses are those of the text alone (`exists_alone_of_group`), a repetition
leaves what is wrong with them as it is unless its upper bound is zero, and a group with which
nothing is wrong has a tree of its own (`exists_tree_of_filled`).
-/

namespace ActionRegex.Pattern

variable {macros : Macros}

/-! ## Reading a group -/

/-- Only a closing parenthesis is read as one, and only letters start names. -/
theorem of_readItem {pos : Nat} {b : UInt8} {rest : Bytes} {item : Item} {next : Cursor}
    (h : readItem pos b rest = .ok (item, next)) :
    (item = .closing → b = Ascii.rightParen ∧ next.pos = pos + 1) ∧
      ∀ name, item = .name name → Ascii.isLetter b = true ∧
        next.pos = pos + 1 + (rest.takeWhile Ascii.isWordByte).length := by
  unfold readItem at h
  split at h
  · next hpunctuation =>
    obtain ⟨rfl, rfl⟩ := Prod.mk.inj (Except.ok.inj h)
    unfold ofPunctuation? at hpunctuation
    split_ifs at hpunctuation with hopening hclosing
    all_goals obtain rfl := Option.some.inj hpunctuation
    all_goals simp_all
  · split_ifs at h with hbrace hbounds hbracket hbackslash hquote hletter
    · obtain ⟨⟨min, max, rfl⟩, -⟩ := reads_readRepetition hbounds h
      simp
    · obtain ⟨⟨text, rfl⟩, -⟩ := reads_readAction (by simpa using hbounds) h
      simp
    · obtain ⟨⟨set, rfl⟩, -⟩ := reads_readClass h
      simp
    · unfold readEscapeItem at h
      split at h
      · simp at h
      all_goals
        obtain ⟨rfl, -⟩ := Prod.mk.inj (Except.ok.inj h)
        simp
    · unfold readQuotedItem at h
      split at h
      · simp at h
      · obtain ⟨rfl, -⟩ := Prod.mk.inj (Except.ok.inj h)
        simp
    · obtain ⟨rfl, rfl⟩ := Prod.mk.inj (Except.ok.inj h)
      exact ⟨by simp, fun _ _ => ⟨hletter, rfl⟩⟩
    · obtain ⟨rfl, -⟩ := Prod.mk.inj (Except.ok.inj h)
      simp

/-- An item that goes across a closing parenthesis is neither a closing parenthesis nor a name. -/
theorem of_readItem_across {pos : Nat} {b : UInt8} {front rest : Bytes} {item : Item}
    {next : Cursor} (h : readItem pos b (front ++ Ascii.rightParen :: rest) = .ok (item, next))
    (hnext : pos + 1 + front.length < next.pos) : item ≠ .closing ∧ ∀ name, item ≠ .name name := by
  obtain ⟨hclosing, hname⟩ := of_readItem h
  refine ⟨fun hitem => ?_, fun name hitem => ?_⟩
  · have hpos := (hclosing hitem).2
    omega
  · have hpos := (hname name hitem).2
    have hstop : ∀ c ∈ (Ascii.rightParen :: rest).head?, Ascii.isWordByte c = false := by
      intro c hc
      obtain rfl := Option.some.inj hc
      decide
    rw [(takeWhile_within fun _ => hstop).1] at hpos
    have hlength := (List.takeWhile_sublist Ascii.isWordByte (l := front)).length_le
    omega

/-- Items that no byte of a text starts are not among the items of the text. -/
theorem Scans.of_bytes {cursor last : Cursor} {items : List (Item × Span)}
    (h : Scans cursor items last)
    (hbytes : ∀ b ∈ cursor.rest, b ≠ Ascii.rightParen ∧ Ascii.isLetter b = false) :
    ∀ x ∈ items, x.1 ≠ .closing ∧ ∀ name, x.1 ≠ .name name := by
  rintro ⟨item, span⟩ hmem
  obtain ⟨items₁, items₂, b, rest, next, -, hbefore, hread, -, -⟩ := h.of_mem hmem
  obtain ⟨u, hu, -⟩ := hbefore.exists_append
  have hb : b ∈ cursor.rest := by
    rw [hu]
    simp
  obtain ⟨hclosing, hname⟩ := of_readItem hread
  refine ⟨fun hitem => (hbytes b hb).1 (hclosing hitem).1, fun name hitem => ?_⟩
  have hletter := (hname name hitem).1
  rw [(hbytes b hb).2] at hletter
  exact nomatch hletter

/-- How a text in parentheses is read in front of another text: apart from it, or with an item that
goes across the parenthesis that closes the group. Then no item closes the group. -/
inductive ReadsGroup (text after : Bytes) : List (Item × Span) → Prop
  | apart {items items' : List (Item × Span)} {opening closing : Span}
    (h : Lexed ⟨0, text⟩ items) (h' : Lexed ⟨text.length + 2, after⟩ items') :
    ReadsGroup text after
      ((.opening, opening) :: (items.map (moveItem 1) ++ (.closing, closing) :: items'))
  | across {items items' : List (Item × Span)} {opening : Span} (h : items <+: (lex text).items)
    (h' : ∀ x ∈ items', x.1 ≠ .closing ∧ ∀ name, x.1 ≠ .name name) :
    ReadsGroup text after ((.opening, opening) :: (items.map (moveItem 1) ++ items'))

/-- A text that is read to its end, moved by one place. -/
theorem exists_lexed_of_moved {text : Bytes} {items : List (Item × Span)}
    (h : Lexed ⟨1, text⟩ items) :
    ∃ items', Lexed ⟨0, text⟩ items' ∧ items = items'.map (moveItem 1) := by
  have hmoved := (h.lexFrom_eq []).symm.trans (lexFrom_move 1 text [])
  obtain ⟨hitems, herror⟩ := Reading.mk.inj hmoved
  have hnone : (lex text).error = none := Option.map_eq_none_iff.mp herror.symm
  exact ⟨(lex text).items, lexed_lex hnone, hitems⟩

/-- A text that is read up to some place, moved by one place. -/
theorem exists_prefix_of_moved {text : Bytes} {items : List (Item × Span)} {last : Cursor}
    (h : Scans ⟨1, text⟩ items last) : ∃ items', items' <+: (lex text).items ∧
      items = items'.map (moveItem 1) := by
  obtain ⟨more, last', error, hscan, hstop, -⟩ := exists_scans_lexFrom last []
  have hmoved := ((h.trans hscan).lexFrom_eq hstop []).symm.trans (lexFrom_move 1 text [])
  obtain ⟨hitems, -⟩ := Reading.mk.inj hmoved
  rw [List.reverse_nil, List.nil_append, List.nil_append] at hitems
  obtain ⟨front, back, hlex, hfront, -⟩ := List.map_eq_append_iff.mp hitems.symm
  exact ⟨front, ⟨back, hlex.symm⟩, hfront.symm⟩

/-- What is left of a text at a place in it, in front of a parenthesis. -/
theorem exists_rest_of_scans {text after rest : Bytes} {items : List (Item × Span)} {start : Nat}
    {b : UInt8} (h : Scans ⟨1, text ++ Ascii.rightParen :: after⟩ items ⟨start, b :: rest⟩)
    (hstart : start < 1 + text.length) :
    ∃ inside, rest = inside ++ Ascii.rightParen :: after ∧
      start + 1 + inside.length = 1 + text.length := by
  obtain ⟨before, htext, hbefore⟩ := h.exists_append
  simp only at htext hbefore
  obtain ⟨inside, rfl, hrest⟩ := exists_append_of_length_le htext.symm (by omega)
  rw [List.length_append] at hstart ⊢
  cases inside with
  | nil =>
    rw [List.length_nil] at hstart
    omega
  | cons c inside =>
    obtain ⟨-, rfl⟩ := List.cons.inj hrest
    refine ⟨inside, rfl, ?_⟩
    rw [List.length_cons]
    omega

/-- Behind an item that goes across a closing parenthesis there is only text from behind it. -/
theorem mem_of_readItem_across {pos : Nat} {b : UInt8} {inside after : Bytes} {item : Item}
    {next : Cursor} (h : readItem pos b (inside ++ Ascii.rightParen :: after) = .ok (item, next))
    (hnext : pos + 1 + inside.length < next.pos) : ∀ c ∈ next.rest, c ∈ after := by
  obtain ⟨read, hread, hpos⟩ := (Scans.item h (.refl next)).exists_append
  simp only at hread hpos
  have hgroup : (b :: inside ++ [Ascii.rightParen]) ++ after = read ++ next.rest := by
    rw [← hread]
    simp
  have hle : (b :: inside ++ [Ascii.rightParen]).length ≤ read.length := by
    simp only [List.length_append, List.length_cons, List.length_nil]
    omega
  obtain ⟨more, -, rfl⟩ := exists_append_of_length_le hgroup hle
  intro c hc
  exact List.mem_append_right more hc

theorem readsGroup_of_lexed {text after : Bytes} {all : List (Item × Span)}
    (h : Lexed ⟨0, wrap text ++ after⟩ all)
    (hafter : ∀ b ∈ after, b ≠ Ascii.rightParen ∧ Ascii.isLetter b = false) :
    ReadsGroup text after all := by
  have htext : wrap text ++ after = Ascii.leftParen :: (text ++ Ascii.rightParen :: after) := by
    simp [wrap]
  rw [htext] at h
  cases h with
  | blank hb => exact absurd hb (by decide)
  | @item _ _ _ item next all hread h =>
    have hopening : readItem 0 Ascii.leftParen (text ++ Ascii.rightParen :: after) =
        .ok (.opening, ⟨1, text ++ Ascii.rightParen :: after⟩) := rfl
    obtain ⟨rfl, rfl⟩ := Prod.mk.inj (Except.ok.inj (hread.symm.trans hopening))
    have hmeets :
        Meets ⟨1, text ++ Ascii.rightParen :: after⟩ text (Ascii.rightParen :: after) _ all :=
      h.scans.meets rfl (by simp)
    cases hmeets with
    | between hfront hbehind =>
      obtain ⟨items, hitems, rfl⟩ := exists_lexed_of_moved hfront.lexed_of_append
      have hclosing : readItem (1 + text.length) Ascii.rightParen after =
          .ok (.closing, ⟨1 + text.length + 1, after⟩) := rfl
      cases hbehind.lexed with
      | blank hb => exact absurd hb (by decide)
      | item hread' hafter' =>
        obtain ⟨rfl, rfl⟩ := Prod.mk.inj (Except.ok.inj (hread'.symm.trans hclosing))
        rw [show 1 + text.length + 1 = text.length + 2 by omega] at hafter'
        exact .apart hitems hafter'
    | @across _ items' start b rest item' next' hfront hread' hstart hnext hbehind =>
      simp only at hstart hnext
      obtain ⟨inside, rfl, hpos⟩ := exists_rest_of_scans hfront hstart
      have hbehindText : (Ascii.rightParen :: after).length ≤
          (b :: (inside ++ Ascii.rightParen :: after)).length := by
        simp only [List.length_cons, List.length_append]
        omega
      have hcut := hfront.cut hbehindText
      rw [Cursor.cut, List.rdrop_append_length] at hcut
      obtain ⟨items, hprefix, rfl⟩ := exists_prefix_of_moved hcut
      refine .across hprefix fun x hx => ?_
      rcases List.mem_cons.mp hx with rfl | hx
      · exact of_readItem_across hread' (by omega)
      · refine hbehind.of_bytes (fun c hc => hafter c ?_) x hx
        exact mem_of_readItem_across hread' (by omega) c hc

/-! ## Expanding a group -/

theorem names_map_moveItem {items : List (Item × Span)} {before : Nat} {name : Bytes}
    (h : Names macros (items.map (moveItem before)) name) : Names macros items name := by
  obtain ⟨hbody, span, hmem⟩ := h
  obtain ⟨⟨item, span'⟩, hmem', heq⟩ := List.mem_map.mp hmem
  obtain ⟨rfl, -⟩ := Prod.mk.inj heq
  exact ⟨hbody, span', hmem'⟩

theorem names_append {items items' : List (Item × Span)} {name : Bytes}
    (h : Names macros (items ++ items') name) :
    Names macros items name ∨ Names macros items' name := by
  obtain ⟨hbody, span, hmem⟩ := h
  exact (List.mem_append.mp hmem).imp (fun hmem => ⟨hbody, span, hmem⟩) fun hmem =>
    ⟨hbody, span, hmem⟩

theorem PairedMacros.moved {items : List (Item × Span)} (h : PairedMacros macros items)
    (before : Nat) : PairedMacros macros (items.map (moveItem before)) :=
  fun name other body hname => h name other body (names_map_moveItem hname)

/-- The items of a group lead to the same macros as the items in it. -/
theorem PairedMacros.group {items items' : List (Item × Span)} {opening : Span}
    (h : PairedMacros macros items) (hitems' : ∀ x ∈ items', ∀ name, x.1 ≠ .name name) :
    PairedMacros macros ((.opening, opening) :: (items.map (moveItem 1) ++ items')) := by
  intro name other body hname
  rcases names_cons_iff.mp hname with ⟨hopening, -⟩ | hname
  · exact nomatch hopening
  · rcases names_append hname with hname | ⟨-, span, hmem⟩
    · exact h.moved 1 name other body hname
    · exact absurd rfl (hitems' _ hmem name)

/-- A pattern with a tree has its parentheses in pairs, if its macros have theirs in pairs. -/
theorem itemLevel_of_treeOfStream {items : List (Item × Span)} {registry last : Registry}
    {s : Stream} {t : Tree} (hmacros : PairedMacros macros items)
    (hexpand : expand macros [] none items none .empty registry = (.ok s, last))
    (htree : treeOfStream s = .ok t) : itemLevel 0 items = some 0 := by
  have hempty : Chained Stream.empty.tokens := trivial
  exact (counts_expand hmacros hempty hexpand).openAfter_eq.symm.trans
    (levelAfter_of_treeOfStream htree)

/-- A group that is not closed has no tree. -/
theorem ReadsGroup.not_across {items more items' : List (Item × Span)} {opening : Span}
    {registry last : Registry} {s : Stream} {t : Tree}
    (hmacros : PairedMacros macros (items ++ more)) (hlevel : itemLevel 0 (items ++ more) ≠ none)
    (hitems' : ∀ x ∈ items', x.1 ≠ .closing ∧ ∀ name, x.1 ≠ .name name)
    (hexpand : expand macros [] none ((.opening, opening) :: (items.map (moveItem 1) ++ items'))
      none .empty registry = (.ok s, last)) : treeOfStream s ≠ .ok t := by
  intro htree
  have hzero := itemLevel_of_treeOfStream
    (hmacros.of_append_left.group fun x hx => (hitems' x hx).2) hexpand htree
  rw [itemLevel_append] at hlevel
  obtain ⟨level, hitems⟩ : ∃ level, itemLevel 0 items = some level :=
    Option.ne_none_iff_exists'.mp fun hnone => hlevel (by rw [hnone]; rfl)
  obtain ⟨final, hfinal, hle⟩ := exists_itemLevel_of_not_closing (fun x hx => (hitems' x hx).1)
    (level + 1)
  have hwhole : itemLevel 0 ((.opening, opening) :: (items.map (moveItem 1) ++ items')) =
      some final := by
    show itemLevel 1 (items.map (moveItem 1) ++ items') = some final
    rw [itemLevel_append, itemLevel_map_moveItem, ← Nat.zero_add 1, itemLevel_add hitems]
    exact hfinal
  rw [hwhole] at hzero
  obtain rfl := Option.some.inj hzero
  simp at hle

/-- **A group that is expanded is expanded on its own**, and its tokens stand between the
parentheses. -/
theorem exists_alone_of_group {items rest : List (Item × Span)} {opening closing : Span}
    {registry last : Registry} {s : Stream} (hmacros : PairedMacros macros items)
    (hlevel : itemLevel 0 items ≠ none)
    (hexpand : expand macros [] none
      ((.opening, opening) :: (items.map (moveItem 1) ++ (.closing, closing) :: rest)) none .empty
      registry = (.ok s, last)) :
    ∃ (alone filled : Stream) (last' registry' : Registry),
      expand macros [] none items none .empty registry = (.ok alone, last') ∧
      filled.tokens = alone.tokens.map (Token.move 0 1) ++ [⟨.opening, opening⟩] ∧
      Chained filled.tokens ∧
      expand macros [] none rest none (filled.emit .closing closing) registry' = (.ok s, last) := by
  have hempty : Chained Stream.empty.tokens := trivial
  have hopened : (Stream.empty.emit .opening opening).tokens = [⟨.opening, opening⟩] := rfl
  have hfirst : addItem .empty opening .opening = .ok (Stream.empty.emit .opening opening) := rfl
  rw [expand_item (by simp) (by simp), Option.getD_none, hfirst] at hexpand
  simp only [expand_append] at hexpand
  generalize hfilled : expand macros [] none (items.map (moveItem 1)) none
    (Stream.empty.emit .opening opening) registry = result at hexpand
  obtain ⟨result, registry'⟩ := result
  cases result with
  | error e => simp at hexpand
  | ok filled =>
    have hmoved : List.Forall₂ (MovedItem 1 none) items (items.map (moveItem 1)) :=
      List.forall₂_map_right_iff.mpr (List.forall₂_same.mpr fun entry _ => ⟨rfl, rfl⟩)
    have hbase : Opened [⟨.opening, opening⟩] := by simp [Opened]
    have hwithin : Stream.empty.Within ([] : List Bytes).length 1 [⟨.opening, opening⟩]
        (Stream.empty.emit .opening opening) := hopened
    obtain ⟨alone, last', halone, hfilled'⟩ := exists_expand_of_within hwithin
      (List.nil_append _).symm hbase hmacros hempty hlevel hmoved hfilled
    have hchained : Chained filled.tokens := by
      have hopenedChained := Stream.chained_emit hempty .opening opening
      exact (counts_expand (hmacros.moved 1) hopenedChained hfilled).chained
    refine ⟨alone, filled, last', registry', halone, hfilled', hchained, ?_⟩
    have hlast : addItem filled closing .closing = .ok (filled.emit .closing closing) := rfl
    simp only at hexpand
    rw [expand_item (by simp) (by simp), Option.getD_none, hlast] at hexpand
    exact hexpand

theorem repeatTerm_of_expand {min : Nat} {max : Option Nat} {span : Span} {s t : Stream}
    {registry last : Registry} (h : expand macros [] none [(.repetition min max, span)] none s
      registry = (.ok t, last)) : s.repeatTerm min max span = .ok t := by
  rw [expand_item (by simp) (by simp), Option.getD_none] at h
  cases hadd : addItem s span (.repetition min max) with
  | error e =>
    rw [hadd] at h
    exact nomatch h
  | ok added =>
    rw [hadd] at h
    simp only [expand_nil] at h
    obtain ⟨rfl, -⟩ : added = t ∧ registry = last := by simpa using h
    exact hadd

/-- The items of a group leave as many parentheses open as the items in it. -/
theorem itemLevel_group {items rest : List (Item × Span)} {level : Nat}
    (h : itemLevel 0 items = some level) (opening closing : Span) :
    itemLevel 0 ((.opening, opening) :: (items.map (moveItem 1) ++ (.closing, closing) :: rest)) =
      itemLevel level rest := by
  show itemLevel 1 (items.map (moveItem 1) ++ (.closing, closing) :: rest) = itemLevel level rest
  rw [itemLevel_append, itemLevel_map_moveItem, ← Nat.zero_add 1, itemLevel_add h]
  rfl

/-! ## Trees -/

/-- Tokens whose parentheses come in pairs have a tree if nothing is wrong with them in a group. -/
theorem exists_tree_of_filled {alone filled : Stream} {opening closing : Span}
    (hlinked : Linked alone.tokens) (hopen : openAfter alone.tokens = some 0)
    (hfilled : filled.tokens = alone.tokens.map (Token.move 0 1) ++ [⟨.opening, opening⟩])
    (hchained : Chained filled.tokens) (hsound : Sound (filled.emit .closing closing).tokens) :
    ∃ t, treeOfStream alone = .ok t := by
  let moved : Stream := ⟨alone.tokens.map (Token.move 0 1), alone.size, by simp [alone.size_eq]⟩
  have himage : Image (.moved 0) alone.tokens moved.tokens := image_moved 0 1 alone.tokens
  cases htokens : alone.tokens with
  | nil => exact ⟨.empty, treeOfStream_of_parens (by simp [htokens]) hopen⟩
  | cons x tokens =>
    have hmoved : moved.tokens = x.move 0 1 :: tokens.map (Token.move 0 1) := by
      show alone.tokens.map (Token.move 0 1) = _
      rw [htokens, List.map_cons]
    rcases filled.emit_closing closing with ⟨-, last, -, hlast, hkind, -⟩ | ⟨-, hclosed⟩
    · -- the last token of the group opens no parenthesis
      rw [hfilled, htokens] at hlast
      obtain rfl := Option.some.inj hlast
      have hx : x.kind = .opening := (TokenKind.shift_eq_iff 0 x.kind (by simp)).mp hkind
      rw [htokens, openAfter_cons, hx] at hopen
      obtain ⟨level, -, hlevel⟩ := Option.bind_eq_some_iff.mp hopen
      simp [stepLevel] at hlevel
    · rw [hclosed, hfilled] at hsound
      rw [hfilled] at hchained
      have hends : endsTerm moved.tokens = true := by
        have hneeds := hsound.1 rfl
        rw [htokens] at hneeds
        rw [hmoved]
        exact hneeds
      obtain ⟨u, hu⟩ := exists_forms hchained.of_append_left.linked (hsound.2.of_opened rfl)
        (himage.openAfter_eq.trans hopen) hends
      obtain ⟨t, ht, -⟩ := exists_treeOfStream_of_image himage hlinked (treeOfStream_of_forms hu)
      exact ⟨t, ht⟩

/-- **A repetition hides no fault** of the text that it repeats, if the text closes no parenthesis
that it does not open, and the macros that the text leads to have their parentheses in pairs. Only a
repetition with the upper bound zero, which puts the empty text in the place of the group, hides
that an operand is missing in the group, and no other fault. -/
theorem parses_of_repeated {text repetition : Bytes} {min : Nat} {max : Option Nat}
    {registry : Registry} {t : Tree} (hlevel : itemLevel 0 (lex text).items ≠ none)
    (hmacros : PairedMacros macros (lex text).items)
    (hrepetition : RepetitionText repetition min max)
    (hparse : (parse macros (wrap text ++ repetition) registry).1 = .ok t) :
    (∃ u, (parse macros text registry).1 = .ok u) ∨
      max = some 0 ∧ ∃ span, (parse macros text registry).1 = .error ⟨.malformedExpression, span⟩ := by
  obtain ⟨s, htokenize, htree⟩ := exists_tokenize_of_parse (Prod.ext hparse rfl)
  obtain ⟨all, hlexed, hexpand⟩ := exists_lexed_of_tokenize htokenize
  cases readsGroup_of_lexed hlexed hrepetition.of_mem with
  | across hprefix hitems' =>
    obtain ⟨more, hmore⟩ := hprefix
    rw [← hmore] at hlevel hmacros
    exact absurd htree (ReadsGroup.not_across hmacros hlevel hitems' hexpand)
  | @apart items _ opening closing hitems hrest =>
    obtain rfl := hrepetition.eq_of_lexed hrest
    have hlex : lex text = ⟨items, none⟩ := hitems.lex_eq
    rw [hlex] at hlevel hmacros
    have hpaired : itemLevel 0 items = some 0 := by
      obtain ⟨level, hitemLevel⟩ := Option.ne_none_iff_exists'.mp hlevel
      have hzero := itemLevel_of_treeOfStream (hmacros.group (by simp)) hexpand htree
      rw [itemLevel_group hitemLevel] at hzero
      rw [hitemLevel]
      exact hzero
    obtain ⟨alone, filled, last, registry', halone, hfilled, hchained, hrepeat⟩ :=
      exists_alone_of_group hmacros hlevel hexpand
    have halone' : parse macros text registry = (treeOfStream alone, last) := by
      rw [parse, tokenize, hlex, halone]
    have hempty : Chained Stream.empty.tokens := trivial
    have hcounts := counts_expand hmacros hempty halone
    have hopen : openAfter alone.tokens = some 0 := hcounts.openAfter_eq.trans hpaired
    by_cases hmax : max = some 0
    · cases htree' : treeOfStream alone with
      | ok u => exact .inl ⟨u, by rw [halone', htree']⟩
      | error e =>
        have hfault := fault_of_treeOfStream htree'
        rw [if_pos hopen] at hfault
        exact .inr ⟨hmax, e.span, by rw [halone', htree', ← hfault]⟩
    · have hgroup : Chained (filled.emit .closing closing).tokens :=
        Stream.chained_emit hchained .closing closing
      obtain ⟨-, -, hkept⟩ := Stream.kept_of_repeatTerm hgroup hmax (repeatTerm_of_expand hrepeat)
      have hsound := hkept.sound (sound_of_treeOfStream (hkept.chained hgroup) htree)
      have hlinked : Linked alone.tokens := hcounts.chained.linked
      obtain ⟨u, hu⟩ := exists_tree_of_filled hlinked hopen hfilled hchained hsound
      exact .inl ⟨u, by rw [halone', hu]⟩

/-- A macro `m` for an alternation. -/
def choiceMacros : Macros := [([109], [97, 124, 98])]

/-- The text `m c`, and the same text in parentheses with `{1,2}` behind it. -/
theorem parses_of_repeated_choice :
    RepetitionText [123, 49, 44, 50, 125] 1 (some 2) ∧
    (∃ t, (parse choiceMacros (wrap [109, 32, 99] ++ [123, 49, 44, 50, 125]) .empty).1 = .ok t) ∧
    ∃ u, (parse choiceMacros [109, 32, 99] .empty).1 = .ok u := by
  have hdigits : Digits [49] ∧ Digits [50] := by simp [Digits, Ascii.isDigit]
  have hrepetition : RepetitionText [123, 49, 44, 50, 125] 1 (some 2) := .bounds hdigits.1 hdigits.2
  have hitems : (lex [109, 32, 99]).items = [(.name [109], ⟨0, 1⟩), (.name [99], ⟨2, 3⟩)] := by cbv
  have hbody : (lex [97, 124, 98]).items =
    [(.name [97], ⟨0, 1⟩), (.bar, ⟨1, 2⟩), (.name [98], ⟨2, 3⟩)] := by cbv
  have hlevel : itemLevel 0 (lex [109, 32, 99]).items ≠ none := by
    simp [hitems, itemLevel, stepItem]
  have hmacros : PairedMacros choiceMacros (lex [109, 32, 99]).items := by
    intro name other body _ _ hother
    simp only [choiceMacros, Macros.body?] at hother
    split at hother
    · obtain rfl := Option.some.inj hother
      simp [Paired, hbody, itemLevel, stepItem]
    · simp at hother
  let pair := Tree.concat (.alternate (.byte 97) (.byte 98)) (.byte 99)
  have hlex : lex (wrap [109, 32, 99] ++ [123, 49, 44, 50, 125]) =
      ⟨[(.opening, ⟨0, 1⟩), (.name [109], ⟨1, 2⟩), (.name [99], ⟨3, 4⟩), (.closing, ⟨4, 5⟩),
        (.repetition 1 (some 2), ⟨5, 10⟩)], none⟩ :=
    Lexed.lex_eq <| .item rfl <| .item rfl <| .blank rfl <| .item rfl <| .item rfl <| .item rfl <|
      .ended _
  have hparse : (parse choiceMacros (wrap [109, 32, 99] ++ [123, 49, 44, 50, 125]) .empty).1 =
      .ok (.alternate pair (.concat pair pair)) := by
    rw [parse, tokenize, hlex]
    cbv
  refine ⟨hrepetition, ⟨_, hparse⟩, ?_⟩
  rcases parses_of_repeated hlevel hmacros hrepetition hparse with hparses | ⟨hmax, -⟩
  · exact hparses
  · simp at hmax

/-- A macro `m` that closes a parenthesis it does not open, and a macro `n` that opens one. -/
def halfMacros : Macros := [([109], [97, 41]), ([110], [40, 98])]

/-- Faults that a repetition hides: in `(a|){0}` the bar misses an operand, which is dropped with
the group; in `(m n)*` the parentheses around the text pair with those of the macros. -/
theorem parse_hiddenFaults :
    (RepetitionText [123, 48, 125] 0 (some 0) ∧ itemLevel 0 (lex [97, 124]).items = some 0 ∧
      (parse [] (wrap [97, 124] ++ [123, 48, 125]) .empty).1 = .ok .empty ∧
      (parse [] [97, 124] .empty).1 = .error ⟨.malformedExpression, ⟨1, 2⟩⟩) ∧
    RepetitionText [42] 0 none ∧ itemLevel 0 (lex [109, 32, 110]).items = some 0 ∧
      (parse halfMacros (wrap [109, 32, 110] ++ [42]) .empty).1 =
        .ok (.concat (.byte 97) (.closure (.byte 98))) ∧
      (parse halfMacros [109, 32, 110] .empty).1 = .error ⟨.unbalancedParens, ⟨0, 1⟩⟩ := by
  have hdigits : Digits [48] := by simp [Digits, Ascii.isDigit]
  have hnumber : RepetitionText [123, 48, 125] 0 (some 0) := .number (by simp) hdigits
  have hlex : lex (wrap [97, 124] ++ [123, 48, 125]) =
      ⟨[(.opening, ⟨0, 1⟩), (.name [97], ⟨1, 2⟩), (.bar, ⟨2, 3⟩), (.closing, ⟨3, 4⟩),
        (.repetition 0 (some 0), ⟨4, 7⟩)], none⟩ :=
    Lexed.lex_eq <| .item rfl <| .item rfl <| .item rfl <| .item rfl <| .item rfl <| .ended _
  have hdropped : (parse [] (wrap [97, 124] ++ [123, 48, 125]) .empty).1 = .ok .empty := by
    rw [parse, tokenize, hlex]
    cbv
  exact ⟨⟨hnumber, by cbv, hdropped, by cbv⟩, .star, by cbv, by cbv, by cbv⟩

end ActionRegex.Pattern
