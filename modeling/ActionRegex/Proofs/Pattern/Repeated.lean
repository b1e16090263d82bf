import ActionRegex.Proofs.Pattern.Contexts
import ActionRegex.Proofs.Pattern.RepetitionTexts

/-!
# Repeated patterns

A repetition behind a pattern in parentheses gives the repeated tree of the pattern, and a
repetition behind a term inside a pattern changes the tree in the place of the term and nowhere else
(`parse_repetition`). A pattern may have a tree although its tokens are nothing but parentheses
(`Nest`), as it is when a macro opens or closes a parenthesis. Copies of such tokens get the empty
text between the innermost parentheses, so it is only the closure, which makes no copies, that
misses its operand (`parse_strayGroup`).
-/

namespace ActionRegex.Pattern

/-! ## Nothing but parentheses -/

/-- Parentheses in parentheses, with nothing in the innermost ones. -/
inductive Nest : List Token → Prop
  | pair {x y : Token} (hx : x.kind = .opening) (hy : y.kind = .closing) : Nest [x, y]
  | group {x y : Token} {l : List Token} (hx : x.kind = .opening) (h : Nest l)
    (hy : y.kind = .closing) : Nest (x :: l ++ [y])

/-- Where no group stands right behind another one, all parentheses open before one closes. -/
theorem exists_opens_closes {l : List Token} (hparens : ∀ x ∈ l, x.kind.isParen = true)
    (hlinked : Linked l.reverse) {depth : Nat} (hlevel : levelAfter depth l = some 0) :
    ∃ opens closes, l = opens ++ closes ∧ (∀ x ∈ opens, x.kind = .opening) ∧
      (∀ y ∈ closes, y.kind = .closing) ∧ closes.length = depth + opens.length := by
  induction l generalizing depth with
  | nil =>
    obtain rfl := Option.some.inj hlevel
    exact ⟨[], [], rfl, by simp, by simp, rfl⟩
  | cons x rest ih =>
    have hparens' := fun y hy => hparens y (List.mem_cons_of_mem x hy)
    rw [List.reverse_cons] at hlinked
    have hlinked' : Linked rest.reverse := hlinked.of_append_left
    rw [levelAfter] at hlevel
    have hx := hparens x List.mem_cons_self
    cases hkind : x.kind with
    | opening =>
      rw [hkind] at hlevel
      obtain ⟨opens, closes, rfl, hopens, hcloses, hlength⟩ := ih hparens' hlinked' hlevel
      refine ⟨x :: opens, closes, rfl, List.forall_mem_cons.mpr ⟨hkind, hopens⟩, hcloses, ?_⟩
      rw [hlength, List.length_cons]
      omega
    | closing =>
      rw [hkind, stepLevel] at hlevel
      split at hlevel
      · simp at hlevel
      · next hdepth =>
        obtain ⟨opens, closes, rfl, hopens, hcloses, hlength⟩ := ih hparens' hlinked' hlevel
        cases opens with
        | nil =>
          refine ⟨[], x :: closes, rfl, by simp, List.forall_mem_cons.mpr ⟨hkind, hcloses⟩, ?_⟩
          simp only [List.length_cons, List.length_nil] at hlength ⊢
          omega
        | cons y opens =>
          -- a group would stand right behind another one
          rw [List.cons_append, List.reverse_cons, List.append_assoc] at hlinked
          have hstarts : y.kind.startsTerm = true := by
            rw [hopens y List.mem_cons_self]
            rfl
          have hends := hlinked.of_append_right.1 hstarts
          simp [endsTerm, hkind, TokenKind.endsTerm] at hends
    | _ => simp [hkind, TokenKind.isParen] at hx

theorem nest_of_opens_closes {opens closes : List Token} (hopens : ∀ x ∈ opens, x.kind = .opening)
    (hcloses : ∀ y ∈ closes, y.kind = .closing) (hlength : closes.length = opens.length)
    (hne : opens ≠ []) : Nest (opens ++ closes) := by
  induction opens generalizing closes with
  | nil => exact absurd rfl hne
  | cons x opens ih =>
    obtain ⟨hx, hopens'⟩ := List.forall_mem_cons.mp hopens
    rcases List.eq_nil_or_concat closes with rfl | ⟨closes, y, rfl⟩
    · simp at hlength
    · rw [List.concat_eq_append] at hcloses hlength ⊢
      have hy : y.kind = .closing := hcloses y (by simp)
      have hcloses' : ∀ z ∈ closes, z.kind = .closing := fun z hz =>
        hcloses z (List.mem_append_left _ hz)
      have hlength' : closes.length = opens.length := by simpa using hlength
      rw [List.cons_append, ← List.append_assoc]
      by_cases hnil : opens = []
      · subst hnil
        obtain rfl := List.length_eq_zero_iff.mp hlength'
        exact .pair hx hy
      · exact .group hx (ih hopens' hcloses' hlength' hnil) hy

/-- Tokens that are nothing but parentheses are a nest if they have a tree. -/
theorem nest_of_treeOfStream {s : Stream} {t : Tree} (hlinked : Linked s.tokens)
    (htree : treeOfStream s = .ok t) (hbare : BareParens s.tokens) : Nest s.tokens.reverse := by
  have hparens : ∀ x ∈ s.tokens.reverse, x.kind.isParen = true := fun x hx =>
    hbare.2 x (List.mem_reverse.mp hx)
  have hlinked' : Linked s.tokens.reverse.reverse := by rwa [List.reverse_reverse]
  obtain ⟨opens, closes, htokens, hopens, hcloses, hlength⟩ :=
    exists_opens_closes hparens hlinked' (levelAfter_of_treeOfStream htree)
  rw [Nat.zero_add] at hlength
  rw [htokens]
  refine nest_of_opens_closes hopens hcloses hlength fun hnil => hbare.1 ?_
  rw [hnil, List.length_nil, List.length_eq_zero_iff] at hlength
  rwa [hnil, hlength, List.append_nil, List.reverse_eq_nil_iff] at htokens

namespace Nest

variable {l : List Token}

/-- Nothing is put out of a nest. -/
theorem putsOut (h : Nest l) : PutsOut l [] := by
  induction h with
  | pair hx hy =>
    intro out wait rest
    simp [reorder, closeGroup, hx, hy]
  | group hx _ hy ih =>
    intro out wait rest
    rw [List.append_assoc, List.cons_append, reorder, hx]
    simp only
    rw [ih]
    simp [reorder, closeGroup, hx, hy]

theorem groupLength (h : Nest l) (depth count : Nat) (base : List Token) :
    Stream.groupLength (depth + 1) count (l.reverse ++ base) =
      Stream.groupLength (depth + 1) (count + l.length) base := by
  induction h generalizing depth count base with
  | pair hx hy => simp [Stream.groupLength, hx, hy]
  | group hx _ hy ih =>
    rw [List.reverse_append, List.reverse_cons, List.reverse_nil, List.nil_append,
      List.singleton_append, List.reverse_cons, List.cons_append, List.append_assoc,
      Stream.groupLength, hy]
    simp only
    rw [ih]
    simp [Stream.groupLength, hx, Nat.add_comm, Nat.add_left_comm]

/-- A nest is one term for a repetition. -/
theorem termLength (h : Nest l) : Stream.termLength l.reverse = some l.length := by
  cases h with
  | pair hx hy =>
    rw [List.reverse_cons, List.reverse_cons, List.reverse_nil, List.nil_append,
      List.singleton_append, Stream.termLength_cons_closing hy]
    simp [Stream.groupLength, hx]
  | group hx h hy =>
    rw [List.reverse_append, List.reverse_cons, List.reverse_nil, List.nil_append,
      List.singleton_append, Stream.termLength_cons_closing hy, List.reverse_cons, h.groupLength]
    simp [Stream.groupLength, hx, Nat.add_comm]

/-- **A copy of a nest is the empty text.** -/
theorem writes (h : Nest l) : Stream.Writes l .empty := by
  induction h with
  | @pair x y hx hy =>
    intro s
    show ∃ joint, Joint s.tokens joint ∧
      Ends ((s.emit x.kind x.span).emit y.kind y.span).tokens .term .empty joint
    rw [hx, hy]
    exact s.exists_ends_emptyGroup x.span y.span
  | @group x y l hx _ hy ih =>
    intro s
    have hcopy : s.emitAll (x :: l ++ [y]) =
        ((s.emit x.kind x.span).emitAll l).emit y.kind y.span := by
      rw [Stream.emitAll_append]
      rfl
    rw [hcopy, hx, hy]
    refine s.exists_ends_group x.span y.span (fun opened => opened.emitAll l) fun opened hopened => ?_
    obtain ⟨joint, hjoint, hends⟩ := ih opened
    rw [hjoint.eq_of_endsTerm hopened] at hends
    exact hends.sequence_of_term.alternatives_of_sequence

end Nest

/-! ## Repetitions behind all tokens -/

theorem treeOfStream_of_ends {s : Stream} {t : Tree} (h : Ends s.tokens .term t []) :
    treeOfStream s = .ok t := by
  obtain ⟨l, hl, htokens⟩ := h
  refine treeOfStream_of_forms ?_
  rw [htokens, List.append_nil, List.reverse_reverse]
  exact .sequence (.term hl)

variable {macros : Macros}

theorem treeOfExpanded_repetition {min : Nat} {max : Option Nat} (span : Span)
    (rest : List (Item × Span)) (s : Stream) (registry : Registry) :
    treeOfExpanded (expand macros [] none ((.repetition min max, span) :: rest) none s registry) =
      match s.repeatTerm min max span with
      | .error e => (.error e, registry)
      | .ok s' => treeOfExpanded (expand macros [] none rest none s' registry) := by
  rw [expand_item (by simp) (by simp)]
  show treeOfExpanded (match s.repeatTerm min max span with
    | .error e => (.error e, registry)
    | .ok s' => expand macros [] none rest none s' registry) = _
  cases s.repeatTerm min max span with
  | error e => rfl
  | ok s' => rfl

section Repetitions

variable {s : Stream} {min : Nat} {max : Option Nat} (hvalid : Stream.ValidBounds min max)
  (span : Span)

include hvalid

/-- **A repetition of a nest.** Only the closure misses its operand. -/
theorem repeatTerm_of_nest (h : Nest s.tokens.reverse) :
    (∃ e, s.repeatTerm min max span = .error e ∧ e.fault = .patternTooLarge) ∨
      ∃ s', s.repeatTerm min max span = .ok s' ∧ treeOfStream s' =
        if min = 0 ∧ max = none then .error ⟨.malformedExpression, span⟩
        else .ok (Tree.empty.repeated min max) := by
  have hlength : Stream.termLength s.tokens = some s.tokens.length := by
    have hterm := h.termLength
    rwa [List.reverse_reverse, List.length_reverse] at hterm
  have hdrop : (s.dropLast s.tokens.length).tokens = [] := List.drop_length
  have hlast : s.lastTokens s.tokens.length = s.tokens.reverse := by
    rw [Stream.lastTokens, List.take_length]
  have hwrites : Stream.Writes (s.lastTokens s.tokens.length) .empty := hlast ▸ h.writes
  have hbase : endsTerm (s.dropLast s.tokens.length).tokens = false := by
    rw [hdrop]
    rfl
  have hrepeats := Stream.repeats_repeatTerm hlength hwrites hbase min max span
  generalize s.repeatTerm min max span = result at hrepeats ⊢
  cases hrepeats with
  | @refused e _ hlarge => exact .inl ⟨e, rfl, hlarge hvalid⟩
  | once hmin hmax =>
    subst hmin hmax
    refine .inr ⟨s, rfl, ?_⟩
    have hreorder := h.putsOut [] [] []
    rw [List.append_nil] at hreorder
    rw [treeOfStream, toPostfix, hreorder]
    rfl
  | closure hmin hmax =>
    subst hmin hmax
    refine .inr ⟨_, rfl, ?_⟩
    have hclosed : (s.emit .closure span).tokens = ⟨.closure, span⟩ :: s.tokens :=
      Stream.emit_operator rfl (by decide)
    have hreorder := h.putsOut [] [] [⟨.closure, span⟩]
    rw [treeOfStream, hclosed, List.reverse_cons, toPostfix, hreorder]
    rfl
  | @written s' hstar _ hends =>
    rw [hdrop] at hends
    exact .inr ⟨s', rfl, by rw [if_neg hstar, treeOfStream_of_ends hends]⟩

variable {registry last : Registry} (hregistry : registry.toList = last.toList) {missing : Prop}

include hregistry

theorem gives_of_ends {t : Tree} (hmissing : ¬ missing) (h : Ends s.tokens .term t []) :
    Gives (t.repeated min max) last missing
      (treeOfExpanded (expand macros [] none [(.repetition min max, span)] none s registry)) := by
  rw [treeOfExpanded_repetition]
  rcases Stream.ends_repeatTerm rfl h min max span with ⟨e, he, -, hlarge⟩ | ⟨s', hok, -, hends⟩
  · rw [he]
    exact .tooLarge (hlarge hvalid)
  · simp only [hok, expand_nil, treeOfExpanded, treeOfStream_of_ends hends]
    exact .tree hmissing hregistry

theorem gives_of_nest (hmissing : missing ↔ min = 0 ∧ max = none) (h : Nest s.tokens.reverse) :
    Gives (Tree.empty.repeated min max) last missing
      (treeOfExpanded (expand macros [] none [(.repetition min max, span)] none s registry)) := by
  rw [treeOfExpanded_repetition]
  rcases repeatTerm_of_nest hvalid span h with ⟨e, he, hlarge⟩ | ⟨s', hok, htree⟩
  · rw [he]
    exact .tooLarge hlarge
  · simp only [hok, expand_nil, treeOfExpanded, htree]
    split
    · next hstar => exact .malformed (hmissing.mpr hstar) rfl
    · next hstar => exact .tree (fun h => hstar (hmissing.mp h)) hregistry

end Repetitions

/-! ## Patterns in parentheses -/

/-- The tokens of a pattern are nothing but parentheses. -/
def OnlyParensIn (macros : Macros) (pattern : Bytes) (registry : Registry) : Prop :=
  ∃ s last, tokenize macros pattern registry = (.ok s, last) ∧ BareParens s.tokens

/-- **The tokens of a pattern in parentheses** are one term with its tree, or they are a nest. -/
theorem ends_or_nest {alone s : Stream} {t : Tree} {x y : Token} (hlinked : Linked alone.tokens)
    (htree : treeOfStream alone = .ok t) (hne : alone.tokens ≠ []) (hx : x.kind = .opening)
    (hy : y.kind = .closing) (before : Nat)
    (htokens : s.tokens = y :: (alone.tokens.map (Token.move 0 before) ++ [x])) :
    Ends s.tokens .term t [] ∧ ¬ BareParens alone.tokens ∨
      Nest s.tokens.reverse ∧ BareParens alone.tokens ∧ t = .empty := by
  have himage := image_moved 0 before alone.tokens
  rw [htokens]
  rcases forms_or_parens_of_treeOfStream hlinked htree with hforms | ⟨hparens, hopen, rfl⟩
  · left
    have hmoved := hforms.image (by rwa [List.reverse_reverse])
    rw [Tree.substitute_moved_zero] at hmoved
    refine ⟨Ends.group ⟨_, hmoved, by rw [List.reverse_reverse]⟩ hx hy, fun hbare => ?_⟩
    obtain ⟨z, hz, hparen⟩ := hforms.exists_not_isParen
    rw [hbare.2 z (List.mem_reverse.mp hz)] at hparen
    exact absurd hparen (by decide)
  · right
    let moved : Stream := ⟨alone.tokens.map (Token.move 0 before), alone.tokens.length, by simp⟩
    have hmoved : ∀ z ∈ moved.tokens, z.kind.isParen = true := himage.parens_iff.mpr hparens
    have hnest : Nest moved.tokens.reverse :=
      nest_of_treeOfStream (himage.linked hlinked)
        (treeOfStream_of_parens hmoved (himage.openAfter_eq.trans hopen))
        ⟨by simpa [moved] using hne, hmoved⟩
    refine ⟨?_, ⟨hne, hparens⟩, rfl⟩
    have hgroup := Nest.group hx hnest hy
    simpa [moved] using hgroup

/-- **A pattern in parentheses with a repetition behind it.** -/
theorem gives_of_wrap {pattern text : Bytes} {registry last : Registry} {t : Tree} {min : Nat}
    {max : Option Nat} (hparse : parse macros pattern registry = (.ok t, last))
    (htext : RepetitionText text min max) (hvalid : Stream.ValidBounds min max) :
    Gives (t.repeated min max) last (OnlyParensIn macros pattern registry ∧ min = 0 ∧ max = none)
      (parse macros (wrap pattern ++ text) registry) := by
  obtain ⟨alone, htokenize, htree⟩ := exists_tokenize_of_parse hparse
  obtain ⟨items, hlexed, hexpand⟩ := exists_lexed_of_tokenize htokenize
  have hlinked : Linked alone.tokens := linked_of_tokenize htokenize
  have honly : OnlyParensIn macros pattern registry ↔ BareParens alone.tokens := by
    constructor
    · rintro ⟨s, last', h, hbare⟩
      obtain rfl := Except.ok.inj (Prod.mk.inj (htokenize.symm.trans h)).1
      exact hbare
    · exact fun hbare => ⟨alone, last, htokenize, hbare⟩
  obtain ⟨opening, closing, hall⟩ := hlexed.wrap (htext.lexed hvalid (.ended _))
  rw [List.append_nil] at hall
  rw [parse_eq_treeOfExpanded, tokenize, hall.lex_eq, honly]
  have hempty : endsTerm Stream.empty.tokens = false := rfl
  have hwrapped := expand_wrapped hexpand htree hempty (List.nil_append _).symm (0 + 1) opening
    closing [(.repetition min max, ⟨0 + (wrap pattern).length,
      0 + (wrap pattern).length + text.length⟩)]
  generalize expand macros [] none ((.opening, opening) :: (items.map (moveItem (0 + 1)) ++
    (.closing, closing) :: [(.repetition min max, ⟨0 + (wrap pattern).length,
      0 + (wrap pattern).length + text.length⟩)])) none .empty registry = result at hwrapped ⊢
  cases hwrapped with
  | tooLarge h => exact .tooLarge h
  | empty hnil hx he hy htokens hregistry =>
    rw [treeOfStream, hnil] at htree
    obtain rfl : .empty = t := Except.ok.inj htree
    refine gives_of_ends hvalid _ hregistry (fun hmissing => hmissing.1.1 hnil) ?_
    rw [htokens]
    exact Ends.group (Ends.empty he _).sequence_of_term.alternatives_of_sequence hx hy
  | tokens hne hx hy htokens hregistry =>
    rcases ends_or_nest hlinked htree hne hx hy _ htokens with
      ⟨hends, hbare⟩ | ⟨hnest, hbare, rfl⟩
    · exact gives_of_ends hvalid _ hregistry (fun hmissing => hbare hmissing.1) hends
    · exact gives_of_nest hvalid _ hregistry (and_iff_right hbare) hnest

/-! ## Terms inside patterns -/

/-- The tokens of a text end with a complete term, which has the given tree. -/
def EndsWithTerm (macros : Macros) (front : Bytes) (registry : Registry) (t : Tree) : Prop :=
  ∃ s last base, tokenize macros front registry = (.ok s, last) ∧ Ends s.tokens .term t base

/-- **A term inside a pattern with a repetition behind it.** -/
theorem exists_context_of_parse {front post : Bytes} {registry last : Registry} {t u : Tree}
    (hfront : EndsWithTerm macros front registry t)
    (hparse : parse macros (front ++ Ascii.space :: post) registry = (.ok u, last)) :
    ∃ C : Context, u = C.fill t ∧ ∀ text min max, RepetitionText text min max →
      Stream.ValidBounds min max → Gives (C.fill (t.repeated min max)) last False
        (parse macros (front ++ (text ++ post)) registry) := by
  obtain ⟨s, first, base, htokenize, hends⟩ := hfront
  obtain ⟨items, hlexed, hexpand⟩ := exists_lexed_of_tokenize htokenize
  obtain ⟨whole, hwhole, htree⟩ := exists_tokenize_of_parse hparse
  obtain ⟨all, hlexedAll, hexpandAll⟩ := exists_lexed_of_tokenize hwhole
  obtain ⟨items', hpost, rfl⟩ := hlexed.exists_of_blank rfl hlexedAll
  rw [expand_append, hexpand] at hexpandAll
  have hlinked : Linked s.tokens := linked_of_tokenize htokenize
  obtain ⟨C, hC, hcontext⟩ := exists_context hlinked hends hexpandAll htree
  refine ⟨C, hC, fun text min max htext hvalid => ?_⟩
  obtain ⟨span, k, hinsert⟩ := htext.exists_lexed_insert hvalid hlexed hpost
  rw [parse_eq_treeOfExpanded, tokenize, hinsert.lex_eq, expand_append, hexpand]
  show Gives _ _ _ (treeOfExpanded (expand macros [] none _ none s first))
  rw [treeOfExpanded_repetition]
  rcases Stream.ends_repeatTerm (endsTerm_of_ends hlinked hends) hends min max span with
    ⟨e, he, -, hlarge⟩ | ⟨s', hok, -, hends'⟩
  · rw [he]
    exact .tooLarge (hlarge hvalid)
  · rw [hok]
    have hsame : SameItems items' (items'.map (moveItem k)) :=
      List.forall₂_map_right_iff.mpr (List.forall₂_same.mpr fun _ _ => rfl)
    exact hcontext _ s' _ hsame hends'

/-- **Repetitions give repeated trees.** A pattern with a tree, in parentheses and with a repetition
behind it, has the repeated tree, but that the closure of nothing but parentheses misses its
operand. A repetition behind a term inside a pattern, in the place of a blank, changes the tree of
the pattern where the term stands; the context is the same for all repetitions. -/
theorem parse_repetition (macros : Macros) :
    (∀ pattern registry t last, parse macros pattern registry = (.ok t, last) →
      ∀ text min max, RepetitionText text min max → Stream.ValidBounds min max →
        Gives (t.repeated min max) last
          (OnlyParensIn macros pattern registry ∧ min = 0 ∧ max = none)
          (parse macros (wrap pattern ++ text) registry)) ∧
      ∀ front post registry t u last, EndsWithTerm macros front registry t →
        parse macros (front ++ Ascii.space :: post) registry = (.ok u, last) →
        ∃ C : Context, u = C.fill t ∧
          ∀ text min max, RepetitionText text min max → Stream.ValidBounds min max →
            Gives (C.fill (t.repeated min max)) last False
              (parse macros (front ++ (text ++ post)) registry) :=
  ⟨fun _ _ _ _ hparse _ _ _ htext hvalid => gives_of_wrap hparse htext hvalid,
    fun _ _ _ _ _ _ hfront hparse => exists_context_of_parse hfront hparse⟩

/-- The patterns `(a|b){1,2}` and `(c a+|d)e`. -/
theorem parse_repetition_choice :
    let choice := Tree.alternate (.byte 97) (.byte 98)
    (parse [] [40, 97, 124, 98, 41, 123, 49, 44, 50, 125] .empty).1 =
      .ok (.alternate choice (.concat choice choice)) ∧
    ∃ C : Context,
      .concat (.alternate (.concat (.byte 99) (.byte 97)) (.byte 100)) (.byte 101) =
        C.fill (.byte 97) ∧
      (parse [] [40, 99, 32, 97, 43, 124, 100, 41, 101] .empty).1 =
        .ok (C.fill (.concat (.byte 97) (.closure (.byte 97)))) := by
  obtain ⟨hgroup, hterm⟩ := parse_repetition []
  have hdigits : Digits [49] ∧ Digits [50] := by simp [Digits, Ascii.isDigit]
  have hbounds : RepetitionText [123, 49, 44, 50, 125] 1 (some 2) := .bounds hdigits.1 hdigits.2
  have hpattern : parse [] [97, 124, 98] .empty =
      (.ok (.alternate (.byte 97) (.byte 98)), .empty) := by cbv
  have hgives := hgroup _ _ _ _ hpattern _ _ _ hbounds ⟨by decide, by simp [maxRepetition]⟩
  have hfront : EndsWithTerm [] [40, 99, 32, 97] .empty (.byte 97) :=
    ⟨((Stream.empty.emit .opening ⟨0, 1⟩).emitByte ⟨1, 2⟩ 99).emitByte ⟨3, 4⟩ 97, .empty, _, by cbv,
      Ends.symbol rfl _⟩
  have hwhole : parse [] [40, 99, 32, 97, 32, 124, 100, 41, 101] .empty =
      (.ok (.concat (.alternate (.concat (.byte 99) (.byte 97)) (.byte 100)) (.byte 101)),
        .empty) := by cbv
  obtain ⟨C, hC, hrepeated⟩ := hterm _ [124, 100, 41, 101] _ _ _ _ hfront hwhole
  have hgives' := hrepeated _ _ _ .plus ⟨by decide, by simp⟩
  have hlex : lex (wrap [97, 124, 98] ++ [123, 49, 44, 50, 125]) =
      ⟨[(.opening, ⟨0, 1⟩), (.name [97], ⟨1, 2⟩), (.bar, ⟨2, 3⟩), (.name [98], ⟨3, 4⟩),
        (.closing, ⟨4, 5⟩), (.repetition 1 (some 2), ⟨5, 10⟩)], none⟩ :=
    Lexed.lex_eq <| .item rfl <| .item rfl <| .item rfl <| .item rfl <| .item rfl <| .item rfl <|
      .ended _
  refine ⟨hgives.eq_of_isOk ?_, C, hC, hgives'.eq_of_isOk (by cbv)⟩
  rw [parse, tokenize, hlex]
  cbv

/-- A macro `m` that closes a parenthesis. -/
def closingMacros : Macros := [([109], [41])]

/-- The pattern `(m` has a tree, but the pattern `((m)*` is refused. -/
theorem parse_strayGroup :
    parse closingMacros [40, 109] .empty = (.ok .empty, .empty) ∧
    RepetitionText [Ascii.star] 0 none ∧ Stream.ValidBounds 0 none ∧
    ∃ span, parse closingMacros (wrap [40, 109] ++ [Ascii.star]) .empty =
      (.error ⟨.malformedExpression, span⟩, .empty) :=
  ⟨by cbv, .star, ⟨by decide, by simp⟩, ⟨4, 5⟩, by cbv⟩

end ActionRegex.Pattern
