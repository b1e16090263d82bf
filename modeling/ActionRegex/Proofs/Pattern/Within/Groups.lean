import ActionRegex.Pattern.Parser
import ActionRegex.Proofs.Pattern.Within.Alternation
import ActionRegex.Proofs.Pattern.Within.Expansion

/-!
# A pattern in parentheses

The text of a pattern between parentheses is read as the items of the pattern between the two
parentheses (`Lexed.wrap`). From them the tokens of one group are added, its action blocks are
registered, and the group is a part with the tree that the pattern has alone (`expand_group`).
-/

namespace ActionRegex.Pattern

variable {macros : Macros}

/-! ## Reading -/

/-- The text of a pattern in parentheses. -/
def wrap (rule : Bytes) : Bytes := Ascii.leftParen :: rule ++ [Ascii.rightParen]

theorem Lexed.punctuation {pos : Nat} {b : UInt8} {rest : Bytes} {item : Item}
    {items : List (Item × Span)} (hb : ofPunctuation? b = some item)
    (h : Lexed ⟨pos + 1, rest⟩ items) :
    Lexed ⟨pos, b :: rest⟩ ((item, ⟨pos, pos + 1⟩) :: items) :=
  .item (by rw [readItem, hb]) h

theorem Lexed.wrap {rule rest : Bytes} {items items' : List (Item × Span)} {before : Nat}
    (h : Lexed ⟨0, rule⟩ items) (hrest : Lexed ⟨before + (wrap rule).length, rest⟩ items') :
    ∃ opening closing : Span, Lexed ⟨before, Pattern.wrap rule ++ rest⟩
      ((.opening, opening) ::
        (items.map (moveItem (before + 1)) ++ (.closing, closing) :: items')) := by
  have hlength : before + (Pattern.wrap rule).length = before + 1 + (0 + rule.length) + 1 := by
    simp only [Pattern.wrap, List.length_append, List.length_cons, List.length_nil]
    omega
  rw [hlength] at hrest
  have hinner := h.within (closes_rightParen rest) (.punctuation rfl hrest)
  have hall := Lexed.punctuation
    (show ofPunctuation? Ascii.leftParen = some .opening from rfl) hinner
  refine ⟨⟨before, before + 1⟩,
    ⟨before + 1 + (0 + rule.length), before + 1 + (0 + rule.length) + 1⟩, ?_⟩
  rw [Pattern.wrap, List.append_assoc, List.singleton_append]
  exact hall

/-- A pattern with tokens is read to its end. -/
theorem exists_lexed_of_tokenize {pattern : Bytes} {registry last : Registry} {s : Stream}
    (h : tokenize macros pattern registry = (.ok s, last)) :
    ∃ items, Lexed ⟨0, pattern⟩ items ∧
      expand macros [] none items none .empty registry = (.ok s, last) := by
  have hfault : (lex pattern).error = none := fault_eq_none_of_expand (congrArg Prod.fst h)
  refine ⟨(lex pattern).items, lexed_lex hfault, ?_⟩
  rw [← hfault]
  exact h

/-- A pattern with a tree has tokens, and they have the tree. -/
theorem exists_tokenize_of_parse {pattern : Bytes} {registry last : Registry} {t : Tree}
    (h : parse macros pattern registry = (.ok t, last)) :
    ∃ s, tokenize macros pattern registry = (.ok s, last) ∧ treeOfStream s = .ok t := by
  unfold parse at h
  split at h
  · simp at h
  · next s last' htokenize =>
    obtain ⟨htree, rfl⟩ := Prod.mk.inj h
    exact ⟨s, htokenize, htree⟩

/-! ## Adding the tokens -/

/-- The tokens are parentheses and nothing else. Without any tokens a pattern is the empty text. -/
def BareParens (tokens : List Token) : Prop := tokens ≠ [] ∧ ∀ x ∈ tokens, x.kind.isParen = true

/-- A part with the tree that a stream has alone. -/
structure PartOf (s : Stream) (t : Tree) (part : List Token × Tree) : Prop where
  operand : Operand part
  language : part.2.language = t.language
  bareParens : part.1 = [] ↔ BareParens s.tokens

theorem computes_empty {x : Token} (hx : x.kind = .empty) : Computes [x] .empty :=
  fun stack rest => ⟨x.span, by simp [foldTokens, applyToken, hx]⟩

theorem exists_of_treeOfStream {s : Stream} {t : Tree} (h : treeOfStream s = .ok t) :
    ∃ code, toPostfix s.tokens.reverse = .ok code ∧ treeOfPostfix code = .ok t := by
  unfold treeOfStream at h
  split at h
  · simp at h
  · next code hcode => exact ⟨code, hcode, h⟩

theorem total_weight_of_isParen {l : List Token} (h : ∀ x ∈ l, x.kind.isParen = true) :
    total TokenKind.weight l = 0 := by
  refine List.sum_eq_zero fun n hn => ?_
  obtain ⟨x, hx, rfl⟩ := List.mem_map.mp hn
  have hparen := h x hx
  cases hkind : x.kind with
  | opening | closing => rfl
  | _ => simp [hkind, TokenKind.isParen] at hparen

/-- Nothing is put out of tokens with a tree if and only if they are parentheses. -/
theorem code_eq_nil_iff {l code : List Token} {t : Tree} (hcode : toPostfix l = .ok code)
    (h : treeOfPostfix code = .ok t) : code = [] ↔ ∀ x ∈ l, x.kind.isParen = true := by
  have hresult := toPostfix_eq_ok_iff.mp hcode
  constructor
  · rintro rfl
    have hcounted := total_of_reorder TokenKind.counted rfl rfl hresult
    simp only [List.reverse_nil, total_nil, zero_add] at hcounted
    exact isParen_of_total_counted hcounted.symm
  · intro hparens
    have hweight := total_of_reorder TokenKind.weight rfl rfl hresult
    have hzero := total_weight_of_isParen hparens
    simp only [total_reverse, total_nil, zero_add, hzero] at hweight
    rcases foldTokens_of_treeOfPostfix h with ⟨span, hfold⟩ | ⟨hnil, -⟩
    · have hlength := length_of_foldTokens hfold
      simp [hweight] at hlength
    · exact hnil

/-- Parentheses around tokens are put out as a part. -/
theorem exists_putsOut_group {s : Stream} {t : Tree} (htree : treeOfStream s = .ok t)
    (hne : s.tokens ≠ []) {x y : Token} (hx : x.kind = .opening) (hy : y.kind = .closing)
    (k before : Nat) :
    ∃ part, PartOf s t part ∧
      PutsOut (x :: (s.tokens.map (Token.move k before)).reverse ++ [y]) part.1 := by
  obtain ⟨code, hcode, hfolded⟩ := exists_of_treeOfStream htree
  refine ⟨(code.map (Token.move k before), t.shift k), ⟨?_, t.language_shift k, ?_⟩, ?_⟩
  · rcases foldTokens_of_treeOfPostfix hfolded with ⟨span, hfold⟩ | ⟨rfl, rfl⟩
    · exact .inl (computes_move hfold k before)
    · exact .inr ⟨rfl, rfl⟩
  · rw [List.map_eq_nil_iff, code_eq_nil_iff hcode hfolded]
    simp [BareParens, hne]
  · rw [← List.map_reverse]
    exact putsOut_group hcode hx hy k before

/-- Parentheses around nothing are put out as a part. -/
theorem exists_putsOut_emptyGroup {s : Stream} {t : Tree} (htree : treeOfStream s = .ok t)
    (hnil : s.tokens = []) {x e y : Token} (hx : x.kind = .opening) (he : e.kind = .empty)
    (hy : y.kind = .closing) :
    ∃ part, PartOf s t part ∧ PutsOut [x, e, y] part.1 := by
  rw [treeOfStream, hnil] at htree
  obtain rfl : .empty = t := Except.ok.inj htree
  exact ⟨([e], .empty), ⟨.inl (computes_empty he), rfl, by simp [BareParens, hnil]⟩,
    putsOut_emptyGroup hx he hy⟩

theorem levelAfter_of_treeOfStream {s : Stream} {t : Tree} (htree : treeOfStream s = .ok t) :
    levelAfter 0 s.tokens.reverse = some 0 := by
  obtain ⟨code, hcode, hfolded⟩ := exists_of_treeOfStream htree
  exact (of_treeOfPostfix hcode hfolded).1

/-- The last token of a stream with a tree opens no parenthesis. -/
theorem ne_opening_of_treeOfStream {s : Stream} {t : Tree} (htree : treeOfStream s = .ok t) :
    ∀ last ∈ s.tokens.head?, last.kind ≠ .opening := by
  intro last hlast hopening
  obtain ⟨rest, hrest⟩ := List.head?_eq_some_iff.mp hlast
  have hlevel := levelAfter_of_treeOfStream htree
  rw [hrest, List.reverse_cons, levelAfter_append] at hlevel
  cases hbefore : levelAfter 0 rest.reverse with
  | none => simp [hbefore] at hlevel
  | some depth => simp [hbefore, levelAfter, stepLevel, hopening] at hlevel

/-- What becomes of a pattern in parentheses in an expansion: its tokens stand between the
parentheses behind the tokens so far, the empty text in the place of no tokens. The action blocks
stand behind `prior`. -/
inductive ExpandsWrapped (macros : Macros) (rest : List (Item × Span)) (alone s : Stream)
    (prior : List Bytes) (last : Registry) (before : Nat) : Expanded → Prop
  | tooLarge {e : Error} {registry' : Registry} (h : e.fault = .patternTooLarge) :
    ExpandsWrapped macros rest alone s prior last before (.error e, registry')
  | empty {x e y : Token} {s' : Stream} {registry' : Registry} (hnil : alone.tokens = [])
    (hx : x.kind = .opening) (he : e.kind = .empty) (hy : y.kind = .closing)
    (htokens : s'.tokens = y :: e :: x :: s.tokens)
    (hregistry : registry'.toList = prior ++ last.toList) :
    ExpandsWrapped macros rest alone s prior last before
      (expand macros [] none rest none s' registry')
  | tokens {x y : Token} {s' : Stream} {registry' : Registry} (hne : alone.tokens ≠ [])
    (hx : x.kind = .opening) (hy : y.kind = .closing)
    (htokens : s'.tokens =
      y :: (alone.tokens.map (Token.move prior.length before) ++ x :: s.tokens))
    (hregistry : registry'.toList = prior ++ last.toList) :
    ExpandsWrapped macros rest alone s prior last before
      (expand macros [] none rest none s' registry')

/-- **A pattern in parentheses adds its tokens in parentheses.** -/
theorem expand_wrapped {items : List (Item × Span)} {alone s : Stream} {t : Tree}
    {first last registry : Registry} {prior : List Bytes}
    (hexpand : expand macros [] none items none .empty first = (.ok alone, last))
    (htree : treeOfStream alone = .ok t) (hs : endsTerm s.tokens = false)
    (hregistry : registry.toList = prior ++ first.toList) (before : Nat)
    (opening closing : Span) (rest : List (Item × Span)) :
    ExpandsWrapped macros rest alone s prior last before
      (expand macros [] none ((.opening, opening) ::
        (items.map (moveItem before) ++ (.closing, closing) :: rest)) none s registry) := by
  have hopened : (s.emit .opening opening).tokens = ⟨.opening, opening⟩ :: s.tokens :=
    Stream.emit_of_follows ⟨fun _ => hs, by simp⟩
  have hstray : ¬ Stray alone.tokens := by
    intro hstray
    have hlevel := levelAfter_of_treeOfStream htree
    rw [hstray.levelAfter_eq] at hlevel
    simp at hlevel
  have hitems : List.Forall₂ (MovedItem before none) items (items.map (moveItem before)) :=
    List.forall₂_map_right_iff.mpr (List.forall₂_same.mpr fun _ _ => ⟨rfl, rfl⟩)
  have hwithin : ExpandsWithin prior before (s.emit .opening opening).tokens alone last
      (expand macros [] none (items.map (moveItem before)) none (s.emit .opening opening)
        registry) :=
    expand_within hexpand rfl hregistry hitems (by simp [Opened, hopened]) (.inr hstray)
  rw [expand_item (by simp) (by simp)]
  show ExpandsWrapped _ _ _ _ _ _ _
    (expand macros [] none _ none (s.emit .opening opening) registry)
  rw [expand_append]
  generalize expand macros [] none (items.map (moveItem before)) none (s.emit .opening opening)
    registry = result at hwithin
  cases hwithin with
  | tooLarge h => exact .tooLarge h
  | @same filled registry' htokens hregistry' =>
    rw [Stream.Within, hopened] at htokens
    dsimp only
    rw [expand_item (by simp) (by simp)]
    show ExpandsWrapped _ _ _ _ _ _ _
      (expand macros [] none rest none (filled.emit .closing closing) registry')
    rcases filled.emit_closing closing with
      ⟨e, first, he, hfirst, hkind, hclosed⟩ | ⟨hfollows, hclosed⟩
    · -- only the parenthesis before the pattern opens one
      have hnil : alone.tokens = [] := by
        cases hlast : alone.tokens with
        | nil => rfl
        | cons x tokens =>
          rw [htokens, hlast] at hfirst
          obtain rfl := Option.some.inj hfirst
          have hopening := (x.kind.shift_eq_iff prior.length (by simp)).mp hkind
          exact absurd hopening (ne_opening_of_treeOfStream htree x (by rw [hlast]; rfl))
      exact .empty hnil rfl he rfl (by rw [hclosed, htokens, hnil]; rfl) hregistry'
    · have hne : alone.tokens ≠ [] := by
        intro hnil
        rw [htokens, hnil] at hfollows
        exact hfollows.closing rfl _ rfl rfl
      exact .tokens hne rfl rfl (by rw [hclosed, htokens]) hregistry'

/-- What becomes of a group in an expansion: its tokens stand behind the tokens so far and its
action blocks behind those so far, unless it is too large. -/
inductive ExpandsGroup (macros : Macros) (rest : List (Item × Span)) (alone : Stream) (t : Tree)
    (fragments : List Bytes) (s : Stream) (registry : Registry) : Expanded → Prop
  | tooLarge {e : Error} {registry' : Registry} (h : e.fault = .patternTooLarge) :
    ExpandsGroup macros rest alone t fragments s registry (.error e, registry')
  | group {s' : Stream} {registry' : Registry} {group : List Token} {part : List Token × Tree}
    (hpart : PartOf alone t part) (hgroup : PutsOut group part.1)
    (htokens : s'.tokens = group.reverse ++ s.tokens)
    (hregistry : registry'.toList = registry.toList ++ fragments) :
    ExpandsGroup macros rest alone t fragments s registry
      (expand macros [] none rest none s' registry')

/-- **A pattern in parentheses adds a part.** -/
theorem expand_group {items : List (Item × Span)} {alone s : Stream} {t : Tree} {last : Registry}
    (hexpand : expand macros [] none items none .empty .empty = (.ok alone, last))
    (htree : treeOfStream alone = .ok t) (hs : endsTerm s.tokens = false) (before : Nat)
    (opening closing : Span) (rest : List (Item × Span)) (registry : Registry) :
    ExpandsGroup macros rest alone t last.toList s registry
      (expand macros [] none ((.opening, opening) ::
        (items.map (moveItem before) ++ (.closing, closing) :: rest)) none s registry) := by
  have hregistry : registry.toList = registry.toList ++ Registry.empty.toList := by
    simp [Registry.toList, Registry.empty]
  have hwrapped := expand_wrapped hexpand htree hs hregistry before opening closing rest
  generalize expand macros [] none ((.opening, opening) ::
    (items.map (moveItem before) ++ (.closing, closing) :: rest)) none s registry = result
    at hwrapped
  cases hwrapped with
  | tooLarge h => exact .tooLarge h
  | empty hnil hx he hy htokens hregistry' =>
    obtain ⟨part, hpart, hputs⟩ := exists_putsOut_emptyGroup htree hnil hx he hy
    exact .group hpart hputs htokens hregistry'
  | tokens hne hx hy htokens hregistry' =>
    obtain ⟨part, hpart, hputs⟩ :=
      exists_putsOut_group htree hne hx hy registry.toList.length before
    exact .group hpart hputs (by rw [htokens]; simp) hregistry'

end ActionRegex.Pattern
