import ActionRegex.Proofs.Pattern.Images
import ActionRegex.Proofs.Pattern.Within.Rules

/-!
# References to macros

When a macro is expanded, the tokens of its body are added between two parentheses as they are.
`Refers` says which macros a pattern expands, at any depth, and with which tokens before them. If
each of their bodies has its own parentheses in pairs, then nothing that is wrong with a body is
mended by what follows (`Advances`), so in a pattern with a tree each body has a tree on its own and
each macro is one term in parentheses; and this is so only if the bodies have their parentheses in
pairs (`references_iff_paired`). A body with other parentheses can be made complete by what stands
around it (`parse_splitPattern`).
-/

namespace ActionRegex.Pattern

variable {macros : Macros} {expanding : List Bytes} {origin : Option Span}

/-! ## Bodies on their own -/

/-- Fewer macros being expanded make no difference, if no macro is expanded inside itself. -/
theorem expand_of_subset {expanding' : List Bytes} {items : List (Item × Span)}
    {fault : Option Error} {stream t : Stream} {registry last : Registry}
    (hok : expand macros expanding origin items fault stream registry = (.ok t, last))
    (hsubset : ∀ name, expanding'.contains name = true → expanding.contains name = true) :
    expand macros expanding' origin items fault stream registry = (.ok t, last) := by
  fun_induction expand macros expanding origin items fault stream registry
    generalizing expanding' t last with
  | case1 =>
    rw [expand.eq_def]
    exact hok
  | case2 =>
    next ih =>
    rw [expand]
    exact ih hok hsubset
  | case3 expanding origin fault stream registry itemSpan rest span b hbody =>
    next ih =>
    rw [expand_letter hbody]
    exact ih hok hsubset
  | case4 => simp at hok
  | case5 => simp at hok
  | case6 => simp at hok
  | case7 expanding origin fault stream registry itemSpan rest span name body hbody hname reading
      inner registry₁ hinner =>
    next ihInner ih =>
    have hsubset' : ∀ other, (name :: expanding').contains other = true →
        (name :: expanding).contains other = true := by
      intro other hother
      rw [List.contains_cons, Bool.or_eq_true] at hother ⊢
      exact hother.imp id (hsubset other)
    have hbodies := ihInner hinner hsubset'
    rw [expand_reference hbody fun hcontains => hname (hsubset name hcontains), hbodies]
    exact ih hok hsubset
  | case8 => simp at hok
  | case9 expanding origin fault stream registry itemSpan rest span item haction hname added hadd =>
    next ih =>
    rw [expand_item haction hname, hadd]
    exact ih hok hsubset

/-- **A body that gives tokens with a tree in some place has a tree on its own.** -/
theorem parses_of_expand {body : Bytes} {inner : Stream} {registry last : Registry} {t : Tree}
    (hok : expand macros expanding origin (lex body).items (lex body).error .empty registry =
      (.ok inner, last)) (htree : treeOfStream inner = .ok t) : Parses macros body := by
  have hsome : expand macros [] origin (lex body).items (lex body).error .empty registry =
      (.ok inner, last) := expand_of_subset hok (by simp)
  have haligned : (Substitution.moved registry.size).Aligned .empty registry :=
    show registry.size = registry.size + 0 from rfl
  have hmirrors : MirrorsExpanded (.moved registry.size)
      (expand macros [] none (lex body).items (lex body).error .empty .empty)
      (expand macros [] origin (lex body).items (lex body).error .empty registry) :=
    mirrors_expand _ .nil haligned (SameItems.refl _) rfl
  rw [hsome] at hmirrors
  unfold Parses parse tokenize
  generalize halone : expand macros [] none (lex body).items (lex body).error .empty .empty = alone
    at hmirrors
  cases hmirrors with
  | ok himage =>
    have hnil : Linked Stream.empty.tokens := trivial
    have hlinked := linked_expand hnil (congrArg Prod.fst halone)
    obtain ⟨u, hu, -⟩ := exists_treeOfStream_of_image himage hlinked htree
    exact ⟨u, hu⟩

/-! ## Which macros are expanded -/

/-- A macro that is expanded: the span of its tokens, the stream before it, and the tokens of its
body. -/
structure Reference where
  name : Bytes
  body : Bytes
  span : Span
  before : Stream
  inner : Stream

namespace Reference

/-- The stream with the parenthesis before the body. -/
def opened (ref : Reference) : Stream := ref.before.emit .opening ref.span

/-- The stream with the body and the parentheses around it. -/
def after (ref : Reference) : Stream := ref.before.emitGroup ref.inner ref.span

/-- The parentheses around the body match each other: each parenthesis between them, the one that
`opened` ends with and the one that `after` ends with, has its pair between them. -/
def Matched (ref : Reference) : Prop :=
  ∃ closing between, ref.after.tokens = closing :: (between.reverse ++ ref.opened.tokens) ∧
    levelAfter 0 between = some 0

/-- A macro as it should be: its body has a tree on its own, the parentheses around it match each
other, and what is added to the stream is one term. -/
structure IsTerm (macros : Macros) (ref : Reference) : Prop where
  parses : Parses macros ref.body
  matched : ref.Matched
  ends : ∃ t joint, Joint ref.before.tokens joint ∧ Ends ref.after.tokens .term t joint

end Reference

/-- The macros that an expansion expands, directly or inside the expansion of another one. -/
inductive Refers (macros : Macros) : List Bytes → Option Span → List (Item × Span) → Stream →
    Registry → Reference → Prop
  | here {expanding : List Bytes} {origin : Option Span} {name body : Bytes} {span : Span}
    {rest : List (Item × Span)} {stream inner : Stream} {registry registry' : Registry}
    (hbody : macros.body? name = some body) (hname : ¬ expanding.contains name = true)
    (hinner : expand macros (name :: expanding) (some (origin.getD span)) (lex body).items
      (lex body).error .empty registry = (.ok inner, registry')) :
    Refers macros expanding origin ((.name name, span) :: rest) stream registry
      ⟨name, body, origin.getD span, stream, inner⟩
  | inside {expanding : List Bytes} {origin : Option Span} {name body : Bytes} {span : Span}
    {rest : List (Item × Span)} {stream : Stream} {registry : Registry} {ref : Reference}
    (hbody : macros.body? name = some body) (hname : ¬ expanding.contains name = true)
    (h : Refers macros (name :: expanding) (some (origin.getD span)) (lex body).items .empty
      registry ref) :
    Refers macros expanding origin ((.name name, span) :: rest) stream registry ref
  | later {expanding : List Bytes} {origin : Option Span} {x : Item × Span}
    {rest : List (Item × Span)} {stream stream' : Stream} {registry registry' : Registry}
    {ref : Reference} (hstep : expand macros expanding origin [x] none stream registry =
      (.ok stream', registry')) (h : Refers macros expanding origin rest stream' registry' ref) :
    Refers macros expanding origin (x :: rest) stream registry ref

/-- The macros that a pattern expands. -/
def RefersTo (macros : Macros) (pattern : Bytes) (registry : Registry) (ref : Reference) : Prop :=
  Refers macros [] none (lex pattern).items .empty registry ref

theorem Refers.body?_eq {items : List (Item × Span)} {stream : Stream} {registry : Registry}
    {ref : Reference} (h : Refers macros expanding origin items stream registry ref) :
    macros.body? ref.name = some ref.body := by
  induction h with
  | here hbody => exact hbody
  | inside _ _ _ ih => exact ih
  | later _ _ ih => exact ih

/-- The macros of the first item. -/
theorem Refers.cons_of_singleton {x : Item × Span} {rest : List (Item × Span)} {stream : Stream}
    {registry : Registry} {ref : Reference}
    (h : Refers macros expanding origin [x] stream registry ref) :
    Refers macros expanding origin (x :: rest) stream registry ref := by
  cases h with
  | here hbody hname hinner => exact .here hbody hname hinner
  | inside hbody hname h => exact .inside hbody hname h
  | later _ h => cases h

/-! ## Parentheses among the items -/

/-- The number of open parentheses after an item; there is none if the item closes too many. -/
def stepItem (depth : Nat) : Item → Option Nat
  | .opening => some (depth + 1)
  | .closing => if depth = 0 then none else some (depth - 1)
  | _ => some depth

/-- The number of open parentheses after items. -/
def itemLevel (depth : Nat) : List (Item × Span) → Option Nat
  | [] => some depth
  | (item, _) :: rest => (stepItem depth item).bind fun depth => itemLevel depth rest

/-- The parentheses among the items of a text come in pairs. -/
def Paired (text : Bytes) : Prop := itemLevel 0 (lex text).items = some 0

/-- No repetition of a text has the upper bound zero, with which its term would be lost. -/
def KeepsTerms (text : Bytes) : Prop :=
  ∀ min span, (.repetition min (some 0), span) ∉ (lex text).items

/-- What items make of a chained stream: it stays chained, the parentheses among the items are
counted, and what is wrong is not mended. -/
structure Advances (items : List (Item × Span)) (tokens tokens' : List Token) : Prop where
  chained : Chained tokens'
  openAfter_eq : openAfter tokens' = (openAfter tokens).bind fun depth => itemLevel depth items
  sound : Sound tokens' → Sound tokens

namespace Advances

variable {items : List (Item × Span)} {tokens tokens' : List Token}

theorem nil (h : Chained tokens) : Advances [] tokens tokens where
  chained := h
  openAfter_eq := (Option.bind_fun_some _).symm
  sound := id

theorem cons {x : Item × Span} {tokens₁ : List Token} (h : Advances [x] tokens tokens₁)
    (h' : Advances items tokens₁ tokens') : Advances (x :: items) tokens tokens' where
  chained := h'.chained
  openAfter_eq := by
    rw [h'.openAfter_eq, h.openAfter_eq, Option.bind_assoc]
    refine Option.bind_congr fun depth _ => ?_
    rw [itemLevel, itemLevel, Option.bind_assoc]
    exact Option.bind_congr fun depth _ => rfl
  sound hsound := h.sound (h'.sound hsound)

theorem of_kept {item : Item} (hitem : ∀ depth, stepItem depth item = some depth)
    (h : Kept tokens tokens') (hs : Chained tokens) (span : Span) :
    Advances [(item, span)] tokens tokens' where
  chained := h.chained hs
  openAfter_eq := by
    rw [h.openAfter_eq]
    refine ((Option.bind_congr fun depth _ => ?_).trans (Option.bind_fun_some _)).symm
    rw [itemLevel, hitem]
    rfl
  sound := h.sound

theorem of_emit {item : Item} {kind : TokenKind} {s : Stream} (hs : Chained s.tokens)
    (hitem : ∀ depth, stepItem depth item = stepLevel depth kind) (span span' : Span) :
    Advances [(item, span)] s.tokens (s.emit kind span').tokens where
  chained := Stream.chained_emit hs kind span'
  openAfter_eq := by
    rw [s.openAfter_emit]
    refine Option.bind_congr fun depth _ => ?_
    rw [itemLevel, hitem]
    exact (Option.bind_fun_some _).symm
  sound hsound := hsound.of_suffix (s.suffix_emit kind span')

end Advances

theorem advances_addItem {s t : Stream} {item : Item} (hs : Chained s.tokens)
    (hzero : ∀ min, item ≠ .repetition min (some 0)) (span span' : Span)
    (hok : addItem s span' item = .ok t) : Advances [(item, span)] s.tokens t.tokens := by
  cases item with
  | opening => exact Except.ok.inj hok ▸ .of_emit hs (fun _ => rfl) span span'
  | closing => exact Except.ok.inj hok ▸ .of_emit hs (fun _ => rfl) span span'
  | bar => exact Except.ok.inj hok ▸ .of_emit hs (fun _ => rfl) span span'
  | byte b => exact Except.ok.inj hok ▸ .of_emit hs (fun _ => rfl) span span'
  | repetition min max =>
    have hmax : max ≠ some 0 := by
      rintro rfl
      exact hzero min rfl
    exact .of_kept (fun _ => rfl) (Stream.kept_of_repeatTerm hs hmax hok).2.2 hs span
  | oneOf set =>
    obtain rfl := Except.ok.inj hok
    refine .of_kept (fun _ => rfl) ?_ hs span
    by_cases hset : set.toList = []
    · rw [Stream.emitSet, hset]
      exact ⟨id, rfl, id⟩
    · obtain ⟨joint, hjoint, hends⟩ := s.exists_ends_emitSet span' hset
      exact hends.kept (fun h => Stream.chained_emitSet h span' set) hjoint
  | quoted bytes =>
    obtain rfl := Except.ok.inj hok
    obtain ⟨joint, hjoint, hends⟩ := s.exists_ends_emitBytes span' bytes
    exact .of_kept (fun _ => rfl)
      (hends.kept (fun h => Stream.chained_emitBytes h span' bytes) hjoint) hs span
  | action | name => exact Except.ok.inj hok ▸ .of_kept (fun _ => rfl) ⟨id, rfl, id⟩ hs span

/-! ## Groups of macros -/

theorem levelAfter_add {depth last : Nat} {l : List Token} (h : levelAfter depth l = some last)
    (k : Nat) : levelAfter (depth + k) l = some (last + k) := by
  induction l generalizing depth with
  | nil =>
    obtain rfl := Option.some.inj h
    rfl
  | cons x rest ih =>
    rw [levelAfter] at h
    obtain ⟨depth', hstep, hrest⟩ := Option.bind_eq_some_iff.mp h
    have hstep' : stepLevel (depth + k) x.kind = some (depth' + k) := by
      cases hx : x.kind with
      | opening =>
        rw [hx] at hstep
        obtain rfl := Option.some.inj hstep
        simp only [stepLevel, Option.some.injEq]
        omega
      | closing =>
        rw [hx, stepLevel] at hstep
        split at hstep
        · simp at hstep
        · obtain rfl := Option.some.inj hstep
          rw [stepLevel, if_neg (by omega)]
          congr 1
          omega
      | _ =>
        rw [hx] at hstep
        obtain rfl := Option.some.inj hstep
        rfl
    rw [levelAfter, hstep']
    exact ih hrest

/-- Tokens with their parentheses in pairs have them in pairs in any group. -/
theorem balanced_of_openAfter {tokens : List Token} (h : openAfter tokens = some 0) :
    Balanced tokens.reverse := fun depth => by
  have hadd := levelAfter_add h depth
  rwa [Nat.zero_add] at hadd

theorem Chained.append {l r : List Token} (hl : Chained l) (hr : Chained r)
    (hends : endsTerm r = false) (hstray : ¬ Stray l) : Chained (l ++ r) := by
  induction l with
  | nil => exact hr
  | cons x l ih =>
    refine ⟨?_, ih hl.2 fun h => hstray (h.of_suffix (List.suffix_cons x l))⟩
    cases l with
    | nil => exact .fresh (fun hclosing => hstray ⟨x, rfl, hclosing⟩) hends
    | cons y l => exact hl.1.of_head?_eq rfl

/-- Behind a parenthesis tokens need no more than they need at the start. -/
theorem Sound.of_opened {l r : List Token} {x : Token} (h : Sound (l ++ x :: r))
    (hx : x.kind = .opening) : Sound l := by
  induction l with
  | nil => trivial
  | cons y l ih =>
    refine ⟨fun hneeds => ?_, ih h.2⟩
    have hends := h.1 hneeds
    cases l with
    | nil => simp [endsTerm, hx, TokenKind.endsTerm] at hends
    | cons z l => exact hends

namespace Reference

variable {ref : Reference}

/-- The stream before the parenthesis that is added for the group of a macro. -/
theorem exists_opened (ref : Reference) : ∃ joint, Joint ref.before.tokens joint ∧
    ref.opened.tokens = ⟨.opening, ref.span⟩ :: joint :=
  Stream.emit_of_startsTerm ref.before ref.span (show TokenKind.opening.startsTerm = true from rfl)

/-- The tokens of a macro are those of its body between parentheses, with the empty text if an open
parenthesis would be closed at once. -/
theorem exists_fill (ref : Reference) : ∃ fill : List Token, (∀ x ∈ fill, x.kind.isParen = false) ∧
    ref.after.tokens =
      ⟨.closing, ref.span⟩ :: ((fill ++ ref.inner.tokens) ++ ref.opened.tokens) := by
  obtain ⟨fill, htokens, hfill⟩ := Stream.emit_tokens (s := ⟨ref.inner.tokens ++ ref.opened.tokens,
    ref.inner.size + ref.opened.size, by simp [ref.inner.size_eq, ref.opened.size_eq]⟩) .closing
    ref.span
  refine ⟨fill, hfill, ?_⟩
  rw [List.append_assoc]
  exact htokens

/-- The parentheses around a body match each other if and only if those of its tokens pair up. -/
theorem matched_iff (ref : Reference) : ref.Matched ↔ openAfter ref.inner.tokens = some 0 := by
  obtain ⟨fill, hfill, hafter⟩ := ref.exists_fill
  have hopen : openAfter (fill ++ ref.inner.tokens) = openAfter ref.inner.tokens := by
    have hbalanced : Balanced fill.reverse :=
      balanced_of_forall fun x hx => hfill x (List.mem_reverse.mp hx)
    have hfilled := hbalanced.openAfter_reverse_append ref.inner.tokens
    rwa [List.reverse_reverse] at hfilled
  constructor
  · rintro ⟨closing, between, htokens, hlevel⟩
    have hbetween := List.append_cancel_right (List.cons.inj (hafter.symm.trans htokens)).2
    rw [← hopen, hbetween, openAfter, List.reverse_reverse]
    exact hlevel
  · intro hinner
    exact ⟨_, (fill ++ ref.inner.tokens).reverse, by rw [hafter, List.reverse_reverse],
      hopen.trans hinner⟩

/-- A body with its parentheses in pairs is added as one item. -/
theorem advances (ref : Reference) (hbefore : Chained ref.before.tokens)
    (hinner : Chained ref.inner.tokens) (hopen : openAfter ref.inner.tokens = some 0) (name : Bytes)
    (span : Span) : Advances [(.name name, span)] ref.before.tokens ref.after.tokens where
  chained := by
    refine Stream.chained_emit (Chained.append hinner (Stream.chained_emit hbefore .opening ref.span)
      (Stream.endsTerm_emit ref.before _ ref.span) fun hstray => ?_) .closing ref.span
    have hnone : openAfter ref.inner.tokens = none := hstray.levelAfter_eq
    rw [hopen] at hnone
    simp at hnone
  openAfter_eq := by
    have hfilled := (balanced_of_openAfter hopen).openAfter_reverse_append ref.opened.tokens
    rw [List.reverse_reverse] at hfilled
    rw [after, Stream.emitGroup, Stream.openAfter_emit]
    show (openAfter (ref.inner.tokens ++ ref.opened.tokens)).bind _ = _
    rw [hfilled, opened, Stream.openAfter_emit, Option.bind_assoc]
    exact Option.bind_congr fun depth _ => by simp [itemLevel, stepItem, stepLevel]
  sound hsound := hsound.of_suffix (Stream.suffix_emitGroup _ _ _)

/-- **A body whose tokens have their parentheses in pairs, and with which nothing is wrong, is a
term.** -/
theorem exists_ends (ref : Reference) (hinner : Chained ref.inner.tokens)
    (hopen : openAfter ref.inner.tokens = some 0) (hsound : Sound ref.after.tokens) :
    ∃ t joint, treeOfStream ref.inner = .ok t ∧ Joint ref.before.tokens joint ∧
      Ends ref.after.tokens .term t joint := by
  obtain ⟨joint, hjoint, hopened⟩ := ref.exists_opened
  let filled : Stream := ⟨ref.inner.tokens ++ ref.opened.tokens, ref.inner.size + ref.opened.size,
    by simp [ref.inner.size_eq, ref.opened.size_eq]⟩
  have hfilled : filled.tokens = ref.inner.tokens ++ ⟨.opening, ref.span⟩ :: joint := by
    rw [← hopened]
  have hafter : ref.after = filled.emit .closing ref.span := rfl
  rw [hafter] at hsound ⊢
  cases htokens : ref.inner.tokens with
  | nil =>
    rw [htokens, List.nil_append] at hfilled
    have htree : treeOfStream ref.inner = .ok .empty :=
      treeOfStream_of_parens (by simp [htokens]) hopen
    refine ⟨.empty, joint, htree, hjoint, ?_⟩
    rcases filled.emit_closing ref.span with ⟨e, last, he, -, -, hclosed⟩ | ⟨hfollows, -⟩
    · rw [hclosed, hfilled]
      exact Ends.group (Ends.empty he _).sequence_of_term.alternatives_of_sequence rfl rfl
    · rw [hfilled] at hfollows
      exact absurd rfl (hfollows.closing rfl _ rfl)
  | cons x tokens =>
    rcases filled.emit_closing ref.span with ⟨-, last, -, hlast, hkind, -⟩ | ⟨-, hclosed⟩
    · -- the body does not end with an open parenthesis
      rw [hfilled, htokens] at hlast
      obtain rfl := Option.some.inj hlast
      rw [htokens, openAfter_cons, hkind] at hopen
      obtain ⟨depth, -, hdepth⟩ := Option.bind_eq_some_iff.mp hopen
      simp [stepLevel] at hdepth
    · rw [hclosed, hfilled] at hsound ⊢
      have hends : endsTerm ref.inner.tokens = true := by
        have hneeds := hsound.1 rfl
        rw [htokens] at hneeds ⊢
        exact hneeds
      obtain ⟨t, ht⟩ := exists_forms hinner.linked (hsound.2.of_opened rfl) hopen hends
      refine ⟨t, joint, treeOfStream_of_forms ht, hjoint, ?_⟩
      exact Ends.group ⟨_, ht, by rw [List.reverse_reverse]⟩ rfl rfl

/-- Nothing is wrong with a body if nothing is wrong with the stream behind it. -/
theorem sound_inner (ref : Reference) (hsound : Sound ref.after.tokens) :
    Sound ref.inner.tokens := by
  obtain ⟨joint, -, hopened⟩ := ref.exists_opened
  obtain ⟨fill, -, hafter⟩ := ref.exists_fill
  rw [hafter, hopened] at hsound
  exact (hsound.2.of_opened rfl).of_append_right

end Reference

/-! ## Whole patterns -/

/-- The upper bound of a repetition in a macro is never zero. -/
def KeepMacroTerms (macros : Macros) : Prop :=
  ∀ name body, macros.body? name = some body → KeepsTerms body

/-- **The items of a pattern are added one after the other**, if the tokens of each macro have their
parentheses in pairs. -/
theorem advances_expand (hmacros : KeepMacroTerms macros) {items : List (Item × Span)}
    {fault : Option Error} {s t : Stream} {registry last : Registry}
    (hzero : ∀ min span, (.repetition min (some 0), span) ∉ items)
    (hrefs : ∀ ref, Refers macros expanding origin items s registry ref →
      openAfter ref.inner.tokens = some 0) (hs : Chained s.tokens)
    (hok : expand macros expanding origin items fault s registry = (.ok t, last)) :
    Advances items s.tokens t.tokens := by
  fun_induction expand macros expanding origin items fault s registry generalizing t last with
  | case1 expanding origin fault stream registry =>
    cases fault with
    | none =>
      obtain ⟨rfl, -⟩ : stream = t ∧ registry = last := by simpa using hok
      exact .nil hs
    | some e => simp at hok
  | case2 expanding origin fault stream registry itemSpan rest span text =>
    next ih =>
    have hstep : Advances [(.action text, itemSpan)] stream.tokens
        (stream.emit (.symbol (.action registry.size)) span).tokens :=
      .of_emit hs (fun _ => rfl) itemSpan span
    refine hstep.cons (ih (fun min span hmem => hzero min span (List.mem_cons_of_mem _ hmem))
      (fun ref href => hrefs ref (.later ?_ href)) hstep.chained hok)
    rw [expand, expand_nil]
  | case3 expanding origin fault stream registry itemSpan rest span b hbody =>
    next ih =>
    have hstep : Advances [(.name [b], itemSpan)] stream.tokens (stream.emitByte span b).tokens :=
      .of_emit hs (fun _ => rfl) itemSpan span
    refine hstep.cons (ih (fun min span hmem => hzero min span (List.mem_cons_of_mem _ hmem))
      (fun ref href => hrefs ref (.later ?_ href)) hstep.chained hok)
    rw [expand_letter hbody, expand_nil]
  | case4 => simp at hok
  | case5 => simp at hok
  | case6 => simp at hok
  | case7 expanding origin fault stream registry itemSpan rest span name body hbody hname reading
      inner registry₁ hinner =>
    next ihInner ih =>
    have hadvances := ihInner (hmacros name body hbody)
      (fun ref href => hrefs ref (.inside hbody hname href)) trivial hinner
    have hopen : openAfter inner.tokens = some 0 := hrefs _ (.here hbody hname hinner)
    have hstep := Reference.advances ⟨name, body, span, stream, inner⟩ hs hadvances.chained hopen
      name itemSpan
    refine hstep.cons (ih (fun min span hmem => hzero min span (List.mem_cons_of_mem _ hmem))
      (fun ref href => hrefs ref (.later ?_ href)) hstep.chained hok)
    rw [expand_reference hbody hname, hinner]
    exact expand_nil _ _
  | case8 => simp at hok
  | case9 expanding origin fault stream registry itemSpan rest span item haction hname added hadd =>
    next ih =>
    have hstep := advances_addItem hs
      (fun min hitem => hzero min itemSpan (hitem ▸ List.mem_cons_self)) itemSpan span hadd
    refine hstep.cons (ih (fun min span hmem => hzero min span (List.mem_cons_of_mem _ hmem))
      (fun ref href => hrefs ref (.later ?_ href)) hstep.chained hok)
    rw [expand_item haction hname, hadd]
    exact expand_nil _ _

/-- If the bodies have their parentheses in pairs, so have their tokens. -/
theorem openAfter_inner_of_paired (hmacros : KeepMacroTerms macros) {items : List (Item × Span)}
    {s : Stream} {registry : Registry} {ref : Reference}
    (hpaired : ∀ ref, Refers macros expanding origin items s registry ref → Paired ref.body)
    (href : Refers macros expanding origin items s registry ref) :
    openAfter ref.inner.tokens = some 0 := by
  -- in a body fewer macros are left to expand
  induction hn : macros.countOutside expanding using Nat.strong_induction_on
    generalizing expanding origin items s registry ref with
  | _ n ih =>
  induction href with
  | here hbody hname hinner =>
    have hlt := Macros.countOutside_cons_lt hbody hname
    have hopen := advances_expand hmacros (hmacros _ _ hbody)
      (fun ref href => ih _ (hn ▸ hlt) (fun ref h => hpaired ref (.inside hbody hname h)) href rfl)
      trivial hinner
    exact hopen.openAfter_eq.trans (hpaired _ (.here hbody hname hinner))
  | inside hbody hname h =>
    have hlt := Macros.countOutside_cons_lt hbody hname
    exact ih _ (hn ▸ hlt) (fun ref h => hpaired ref (.inside hbody hname h)) h rfl
  | later hstep h ihLater =>
    exact ihLater (fun ref h => hpaired ref (.later hstep h)) hn

/-- If the tokens of the bodies have their parentheses in pairs, so have the bodies. -/
theorem paired_of_openAfter_inner (hmacros : KeepMacroTerms macros) {items : List (Item × Span)}
    {s : Stream} {registry : Registry} {ref : Reference}
    (hopen : ∀ ref, Refers macros expanding origin items s registry ref →
      openAfter ref.inner.tokens = some 0)
    (href : Refers macros expanding origin items s registry ref) : Paired ref.body := by
  induction href with
  | here hbody hname hinner =>
    have hadvances := advances_expand hmacros (hmacros _ _ hbody)
      (fun ref h => hopen ref (.inside hbody hname h)) trivial hinner
    exact hadvances.openAfter_eq.symm.trans (hopen _ (.here hbody hname hinner))
  | inside hbody hname _ ih => exact ih fun ref h => hopen ref (.inside hbody hname h)
  | later hstep _ ih => exact ih fun ref h => hopen ref (.later hstep h)

/-- Nothing is wrong with the tokens of a macro if nothing is wrong in the end. -/
theorem sound_after_of_expand (hmacros : KeepMacroTerms macros) {name body : Bytes} {span : Span}
    {rest : List (Item × Span)} {fault : Option Error} {s inner t : Stream}
    {registry registry₁ last : Registry} (hbody : macros.body? name = some body)
    (hname : ¬ expanding.contains name = true)
    (hinner : expand macros (name :: expanding) (some (origin.getD span)) (lex body).items
      (lex body).error .empty registry = (.ok inner, registry₁))
    (hzero : ∀ min span, (.repetition min (some 0), span) ∉ rest)
    (hopen : ∀ ref, Refers macros expanding origin ((.name name, span) :: rest) s registry ref →
      openAfter ref.inner.tokens = some 0) (hs : Chained s.tokens)
    (hok : expand macros expanding origin ((.name name, span) :: rest) fault s registry =
      (.ok t, last)) (hsound : Sound t.tokens) :
    Chained inner.tokens ∧ Sound (s.emitGroup inner (origin.getD span)).tokens := by
  have hchained := (advances_expand hmacros (hmacros name body hbody)
    (fun ref href => hopen ref (.inside hbody hname href)) trivial hinner).chained
  have hstep : expand macros expanding origin [(.name name, span)] none s registry =
      (.ok (s.emitGroup inner (origin.getD span)), registry₁) := by
    rw [expand_reference hbody hname, hinner]
    exact expand_nil _ _
  have hadvances := Reference.advances ⟨name, body, origin.getD span, s, inner⟩ hs hchained
    (hopen _ (.here hbody hname hinner)) name span
  rw [expand_reference hbody hname, hinner] at hok
  exact ⟨hchained, (advances_expand hmacros hzero (fun ref href => hopen ref (.later hstep href))
    hadvances.chained hok).sound hsound⟩

/-- **Every macro is a term**, if the tokens of the bodies have their parentheses in pairs and
nothing is wrong in the end. -/
theorem isTerm_of_refers (hmacros : KeepMacroTerms macros) {items : List (Item × Span)}
    {fault : Option Error} {s t : Stream} {registry last : Registry} {ref : Reference}
    (hzero : ∀ min span, (.repetition min (some 0), span) ∉ items)
    (hopen : ∀ ref, Refers macros expanding origin items s registry ref →
      openAfter ref.inner.tokens = some 0) (hs : Chained s.tokens)
    (hok : expand macros expanding origin items fault s registry = (.ok t, last))
    (hsound : Sound t.tokens) (href : Refers macros expanding origin items s registry ref) :
    ref.IsTerm macros := by
  induction href generalizing fault t last with
  | @here expanding origin name body span rest stream inner registry registry' hbody hname hinner =>
    obtain ⟨hchained, hafter⟩ := sound_after_of_expand hmacros hbody hname hinner
      (fun min span hmem => hzero min span (List.mem_cons_of_mem _ hmem)) hopen hs hok hsound
    have hpairs := hopen _ (.here hbody hname hinner)
    obtain ⟨u, joint, htree, hjoint, hends⟩ := Reference.exists_ends _ hchained hpairs hafter
    exact ⟨parses_of_expand hinner htree, (Reference.matched_iff _).mpr hpairs,
      u, joint, hjoint, hends⟩
  | @inside expanding origin name body span rest stream registry ref hbody hname h ih =>
    generalize hinner : expand macros (name :: expanding) (some (origin.getD span)) (lex body).items
      (lex body).error .empty registry = result
    obtain ⟨result, registry₁⟩ := result
    cases result with
    | error e =>
      rw [expand_reference hbody hname, hinner] at hok
      simp at hok
    | ok inner =>
      obtain ⟨-, hafter⟩ := sound_after_of_expand hmacros hbody hname hinner
        (fun min span hmem => hzero min span (List.mem_cons_of_mem _ hmem)) hopen hs hok hsound
      have hsoundInner := Reference.sound_inner ⟨name, body, origin.getD span, stream, inner⟩ hafter
      exact ih (hmacros name body hbody) (fun ref href => hopen ref (.inside hbody hname href))
        trivial hinner hsoundInner
  | @later expanding origin x rest stream stream' registry registry' ref hstep h ih =>
    have hone : ∀ min span, (.repetition min (some 0), span) ∉ [x] := fun min span hmem =>
      hzero min span (List.mem_cons.mpr (.inl (List.mem_singleton.mp hmem)))
    have hadvances := advances_expand hmacros hone
      (fun ref href => hopen ref href.cons_of_singleton) hs hstep
    rw [← List.singleton_append, expand_append, hstep] at hok
    exact ih (fun min span hmem => hzero min span (List.mem_cons_of_mem _ hmem))
      (fun ref href => hopen ref (.later hstep href)) hadvances.chained hok hsound

/-- Nothing is wrong with chained tokens that have a tree. -/
theorem sound_of_treeOfStream {s : Stream} {t : Tree} (hs : Chained s.tokens)
    (htree : treeOfStream s = .ok t) : Sound s.tokens := by
  obtain ⟨code, hcode, hfolded⟩ := exists_of_treeOfStream htree
  obtain ⟨hopen, hweight⟩ := of_treeOfPostfix hcode hfolded
  rw [total_reverse, total_reverse] at hweight
  rcases hweight with hone | hnone
  · exact (sound_of_total_weight hs.linked hone).2
  · rw [eq_nil_of_total_counted hs hopen hnone]
    trivial

/-- **A macro is one term**, whatever stands around it, as long as the macros that a pattern expands
have their own parentheses in pairs. Then, if the pattern has a tree, each of these macros has a
tree on its own, and the parentheses around its tokens match each other. In no other case this is so
for all macros of a pattern. -/
theorem references_iff_paired {pattern : Bytes} {registry : Registry} {t : Tree}
    (hpattern : KeepsTerms pattern) (hmacros : KeepMacroTerms macros)
    (hparse : (parse macros pattern registry).1 = .ok t) :
    (∀ ref, RefersTo macros pattern registry ref → ref.IsTerm macros) ↔
      ∀ ref, RefersTo macros pattern registry ref → Paired ref.body := by
  constructor
  · intro hterms ref href
    exact paired_of_openAfter_inner hmacros
      (fun ref href => (Reference.matched_iff ref).mp (hterms ref href).matched) href
  · intro hpaired ref href
    have hopen : ∀ ref, RefersTo macros pattern registry ref → openAfter ref.inner.tokens = some 0 :=
      fun ref href => openAfter_inner_of_paired hmacros hpaired href
    obtain ⟨s, htokenize, htree⟩ := exists_tokenize_of_parse (Prod.ext hparse rfl)
    have hadvances := advances_expand hmacros hpattern hopen trivial htokenize
    exact isTerm_of_refers hmacros hpattern hopen trivial htokenize
      (sound_of_treeOfStream hadvances.chained htree) href

/-- A macro `m` for an alternation, and a macro `n` for `m m+`. -/
def nestedMacros : Macros := [([109], [97, 124, 98]), ([110], [109, 32, 109, 43])]

/-- The tree of the macro `n` before the letter `c`. -/
def nestedTree : Tree :=
  let choice := Tree.alternate (.byte 97) (.byte 98)
  .concat (.concat choice (.concat choice (.closure choice))) (.byte 99)

theorem parse_nestedPattern :
    (parse nestedMacros [110, 32, 99] .empty).1 = .ok nestedTree ∧
    ∀ ref, RefersTo nestedMacros [110, 32, 99] .empty ref → ref.IsTerm nestedMacros := by
  have hpattern : (lex [110, 32, 99]).items = [(.name [110], ⟨0, 1⟩), (.name [99], ⟨2, 3⟩)] := by cbv
  have hbodies : ∀ name body, nestedMacros.body? name = some body →
      body = [97, 124, 98] ∨ body = [109, 32, 109, 43] := by
    intro name body hbody
    simp only [nestedMacros, Macros.body?] at hbody
    split at hbody
    · exact .inl (Option.some.inj hbody).symm
    · split at hbody
      · exact .inr (Option.some.inj hbody).symm
      · simp at hbody
  have hm : (lex [97, 124, 98]).items =
    [(.name [97], ⟨0, 1⟩), (.bar, ⟨1, 2⟩), (.name [98], ⟨2, 3⟩)] := by cbv
  have hn : (lex [109, 32, 109, 43]).items =
    [(.name [109], ⟨0, 1⟩), (.name [109], ⟨2, 3⟩), (.repetition 1 none, ⟨3, 4⟩)] := by cbv
  have hparse : (parse nestedMacros [110, 32, 99] .empty).1 = .ok nestedTree := by cbv
  refine ⟨hparse, (references_iff_paired ?_ ?_ hparse).mpr ?_⟩
  · simp [KeepsTerms, hpattern]
  · intro name body hbody
    rcases hbodies name body hbody with rfl | rfl
    · simp [KeepsTerms, hm]
    · simp [KeepsTerms, hn]
  · intro ref href
    rcases hbodies _ _ href.body?_eq with hbody | hbody
    · simp [Paired, hbody, hm, itemLevel, stepItem]
    · simp [Paired, hbody, hn, itemLevel, stepItem]

/-- A macro `m` whose body closes a parenthesis that it does not open. -/
def splitMacros : Macros := [([109], [97, 41, 40, 98])]

/-- What the macro `m` gives at the start of a pattern. -/
def splitReference : Reference where
  name := [109]
  body := [97, 41, 40, 98]
  span := ⟨0, 1⟩
  before := .empty
  inner := (((((Stream.empty.emit (.symbol (.byte 97)) ⟨0, 1⟩).emit .closing ⟨0, 1⟩).emit .opening
    ⟨0, 1⟩).emit (.symbol (.byte 98)) ⟨0, 1⟩))

/-- The pattern `m` has a tree, because the parentheses that are added around the body pair with
those of the body. The body has no tree on its own. -/
theorem parse_splitPattern :
    KeepsTerms [109] ∧ KeepMacroTerms splitMacros ∧
    (parse splitMacros [109] .empty).1 = .ok (.concat (.byte 97) (.byte 98)) ∧
    RefersTo splitMacros [109] .empty splitReference ∧
    ¬ Parses splitMacros splitReference.body ∧ ¬ splitReference.Matched := by
  have hpattern : (lex [109]).items = [(.name [109], ⟨0, 1⟩)] := by cbv
  have hbody : (lex [97, 41, 40, 98]).items = [(.name [97], ⟨0, 1⟩), (.closing, ⟨1, 2⟩),
    (.opening, ⟨2, 3⟩), (.name [98], ⟨3, 4⟩)] := by cbv
  refine ⟨by simp [KeepsTerms, hpattern], ?_, by cbv, ?_, ?_, ?_⟩
  · intro name body hname
    simp only [splitMacros, Macros.body?] at hname
    split at hname
    · obtain rfl := Option.some.inj hname
      simp [KeepsTerms, hbody]
    · simp at hname
  · rw [RefersTo, hpattern]
    exact Refers.here rfl (by simp) (by cbv)
  · rintro ⟨t, ht⟩
    have hfails : (parse splitMacros splitReference.body .empty).1 =
      .error ⟨.unbalancedParens, ⟨1, 2⟩⟩ := by cbv
    rw [hfails] at ht
    simp at ht
  · rw [Reference.matched_iff]
    decide

end ActionRegex.Pattern
