import ActionRegex.Proofs.Pattern.Sentences
import ActionRegex.Proofs.Pattern.Within.Postfix

/-!
# Images of token streams

A stream is an image of another one if it has tokens of a term in the place of each symbol, and the
same kinds of tokens otherwise (`Image`). Whatever is added to a stream has an image that is added
to the image: the scan for the last term, the copies of a repetition and the tokens of a macro do
not look into a term. So the items of a pattern lead from a stream and its image to a stream and its
image, or to the same fault, unless the image has grown too large (`mirrors_expand`). The tree of an
image is the tree of the stream with trees in the place of its symbols (`treeOfStream_image`).
-/

namespace ActionRegex.Pattern

/-! ## Substitutions -/

/-- Puts trees in the place of symbols. -/
def Tree.substitute (f : Symbol → Tree) : Tree → Tree
  | .symbol s => f s
  | .empty => .empty
  | .concat l r => .concat (l.substitute f) (r.substitute f)
  | .alternate l r => .alternate (l.substitute f) (r.substitute f)
  | .closure t => .closure (t.substitute f)

/-- Terms in the place of symbols. A byte stands for itself, and an action block stands for the one
that is registered at the same time in an aligned registry. -/
structure Substitution where
  /-- The symbol may stand for the tokens. -/
  Stands : Symbol → List Token → Prop
  /-- The tree in the place of a symbol. -/
  tree : Symbol → Tree
  /-- The registries are in step. -/
  Aligned : Registry → Registry → Prop
  forms : ∀ {s term}, Stands s term → Forms .term term (tree s)
  byte : ∀ b span, Stands (.byte b) [⟨.symbol (.byte b), span⟩]
  action : ∀ {registry registry'}, Aligned registry registry' → ∀ span,
    Stands (.action registry.size) [⟨.symbol (.action registry'.size), span⟩]
  add : ∀ {registry registry'}, Aligned registry registry' → ∀ text,
    Aligned (registry.add text) (registry'.add text)

/-- Tokens, latest first, with terms in the place of symbols. Spans do not matter. -/
inductive Image (σ : Substitution) : List Token → List Token → Prop
  | nil : Image σ [] []
  | same {x y : Token} {l r : List Token} (hx : ∀ s, x.kind ≠ .symbol s) (hy : y.kind = x.kind)
    (h : Image σ l r) : Image σ (x :: l) (y :: r)
  | symbol {x : Token} {s : Symbol} {term l r : List Token} (hx : x.kind = .symbol s)
    (hterm : σ.Stands s term) (h : Image σ l r) : Image σ (x :: l) (term.reverse ++ r)

variable {σ : Substitution}

/-- Some symbol stands for more than one token, so that images may be larger. -/
def Substitution.Grows (σ : Substitution) : Prop := ∃ s term, σ.Stands s term ∧ term.length ≠ 1

namespace Image

variable {l r l' r' : List Token}

theorem append (h : Image σ l r) (h' : Image σ l' r') : Image σ (l ++ l') (r ++ r') := by
  induction h with
  | nil => exact h'
  | same hx hy _ ih => exact .same hx hy ih
  | symbol hx hterm _ ih =>
    rw [List.append_assoc]
    exact .symbol hx hterm ih

theorem exists_of_append (h : Image σ (l ++ l') r) :
    ∃ m m', r = m ++ m' ∧ Image σ l m ∧ Image σ l' m' := by
  induction l generalizing r with
  | nil => exact ⟨[], r, rfl, .nil, h⟩
  | cons x l ih =>
    cases h with
    | @same _ y _ r hx hy h =>
      obtain ⟨m, m', rfl, hm, hm'⟩ := ih h
      exact ⟨y :: m, m', rfl, .same hx hy hm, hm'⟩
    | @symbol _ s term _ r hx hterm h =>
      obtain ⟨m, m', rfl, hm, hm'⟩ := ih h
      exact ⟨term.reverse ++ m, m', by rw [List.append_assoc], .symbol hx hterm hm, hm'⟩

theorem length_le (h : Image σ l r) : l.length ≤ r.length := by
  induction h with
  | nil => exact Nat.le_refl _
  | same _ _ _ ih => simpa using ih
  | symbol _ hterm _ ih =>
    obtain ⟨x, rest, rfl, -⟩ := (σ.forms hterm).exists_starts
    simp only [List.length_append, List.length_reverse, List.length_cons]
    omega

theorem length_eq (hσ : ¬ σ.Grows) (h : Image σ l r) : r.length = l.length := by
  induction h with
  | nil => rfl
  | same _ _ _ ih => rw [List.length_cons, List.length_cons, ih]
  | @symbol x s term l r _ hterm _ ih =>
    have hone : term.length = 1 := by
      by_contra hne
      exact hσ ⟨s, term, hterm, hne⟩
    rw [List.length_append, List.length_reverse, hone, ih, List.length_cons, Nat.add_comm]

/-! ## The last token -/

theorem any_head? (h : Image σ l r) {p : TokenKind → Bool} {b : Bool}
    (hsymbol : ∀ s, p (.symbol s) = b)
    (hterm : ∀ {s term}, σ.Stands s term → ∀ base : List Token,
      ((term.reverse ++ base).head?.any fun x => p x.kind) = b) :
    (r.head?.any fun x => p x.kind) = l.head?.any fun x => p x.kind := by
  cases h with
  | nil => rfl
  | same _ hy => simp [hy]
  | symbol hx hstands _ => rw [hterm hstands, List.head?_cons, Option.any_some, hx, hsymbol]

theorem endsTerm_eq (h : Image σ l r) : endsTerm r = endsTerm l :=
  h.any_head? (p := TokenKind.endsTerm) (b := true) (fun _ => rfl)
    fun hterm base => (σ.forms hterm).endsTerm_reverse_append base

theorem any_opening (h : Image σ l r) :
    (r.head?.any fun x => x.kind == .opening) = l.head?.any fun x => x.kind == .opening := by
  refine h.any_head? (p := (· == .opening)) (b := false) (fun _ => rfl) fun hterm base => ?_
  have hends := (σ.forms hterm).endsTerm_reverse_append base
  rw [Bool.eq_false_iff]
  intro hopening
  obtain ⟨last, hlast, hkind⟩ := (Option.any_eq_true _ _).mp hopening
  rw [endsTerm_of_opening hlast (eq_of_beq hkind)] at hends
  exact absurd hends (by decide)

theorem joint {joint joint' : List Token} (h : Image σ l r) (hl : Joint l joint)
    (hr : Joint r joint') : Image σ joint joint' := by
  cases hl with
  | fresh hends =>
    obtain rfl := hr.eq_of_endsTerm (h.endsTerm_eq.trans hends)
    exact h
  | behind hends hx =>
    obtain ⟨y, hy, rfl⟩ := hr.exists_cons (h.endsTerm_eq.trans hends)
    exact .same (by simp [hx]) (hy.trans hx.symm) h

/-! ## Adding tokens -/

variable {s s' : Stream}

theorem emit (h : Image σ s.tokens s'.tokens) {kind : TokenKind}
    (hkind : ∀ value, kind ≠ .symbol value) (span span' : Span) :
    Image σ (s.emit kind span).tokens (s'.emit kind span').tokens := by
  have hends : s'.endsWith TokenKind.endsTerm = s.endsWith TokenKind.endsTerm := h.endsTerm_eq
  have hopening : s'.endsWith (· == .opening) = s.endsWith (· == .opening) := h.any_opening
  unfold Stream.emit
  rw [hends, hopening]
  split
  · exact .same hkind rfl (.same (by simp) rfl h)
  · split
    · exact .same hkind rfl (.same (by simp) rfl h)
    · exact .same hkind rfl h

theorem emit_symbol (h : Image σ s.tokens s'.tokens) {value : Symbol} {term : List Token}
    (hterm : σ.Stands value term) (span : Span) :
    Image σ (s.emit (.symbol value) span).tokens (s'.emitAll term).tokens := by
  obtain ⟨joint, hjoint, htokens⟩ := Stream.emit_of_startsTerm s span
    (show TokenKind.startsTerm (.symbol value) = true from rfl)
  obtain ⟨joint', hjoint', htokens'⟩ := (σ.forms hterm).copyable.exists_emitAll s'
  rw [htokens, htokens']
  exact .symbol rfl hterm (h.joint hjoint hjoint')

theorem emitByte (h : Image σ s.tokens s'.tokens) (span span' : Span) (b : UInt8) :
    Image σ (s.emitByte span b).tokens (s'.emitByte span' b).tokens :=
  h.emit_symbol (σ.byte b span') span

/-- Tokens and their images are added one after the other. -/
theorem emitAll {term term' : List Token} (hterm : Image σ term term')
    (h : Image σ s.tokens s'.tokens) :
    Image σ (s.emitAll term.reverse).tokens (s'.emitAll term'.reverse).tokens := by
  induction hterm with
  | nil => exact h
  | @same x y l r hx hy _ ih =>
    rw [List.reverse_cons, List.reverse_cons, Stream.emitAll_append, Stream.emitAll_append]
    show Image σ (Stream.emit _ x.kind x.span).tokens (Stream.emit _ y.kind y.span).tokens
    rw [hy]
    exact ih.emit hx _ _
  | @symbol x value term l r hx hstands _ ih =>
    rw [List.reverse_cons, List.reverse_append, List.reverse_reverse, Stream.emitAll_append,
      Stream.emitAll_append]
    show Image σ (Stream.emit _ x.kind x.span).tokens _
    rw [hx]
    exact ih.emit_symbol hstands _

theorem copying {term term' : List Token} (hterm : Image σ term term') (span span' : Span) :
    Stream.Copying (fun s s' => Image σ s.tokens s'.tokens) term.reverse term'.reverse span span' where
  emit _ hkind h := h.emit hkind span span'
  copy h := hterm.emitAll h

theorem emitBytes (h : Image σ s.tokens s'.tokens) (span span' : Span) (bytes : Bytes) :
    Image σ (s.emitBytes span bytes).tokens (s'.emitBytes span' bytes).tokens := by
  unfold Stream.emitBytes
  split
  · exact h.emit (by simp) span span'
  · exact h.emitByte span span' _
  · refine Image.emit ?_ (by simp) span span'
    exact List.foldl_rel (r := fun s s' : Stream => Image σ s.tokens s'.tokens)
      (h.emit (by simp) span span') fun b _ _ _ h => h.emitByte span span' b

theorem emitSet (h : Image σ s.tokens s'.tokens) (span span' : Span) (set : ByteSet) :
    Image σ (s.emitSet span set).tokens (s'.emitSet span' set).tokens := by
  unfold Stream.emitSet
  split
  · exact h
  · exact h.emitByte span span' _
  · refine Image.emit ?_ (by simp) span span'
    exact List.foldl_rel (r := fun s s' : Stream => Image σ s.tokens s'.tokens)
      ((h.emit (by simp) span span').emitByte span span' _)
      fun b _ _ _ h => (h.emit (by simp) span span').emitByte span span' b

theorem emitGroup {inner inner' : Stream} (h : Image σ s.tokens s'.tokens)
    (hinner : Image σ inner.tokens inner'.tokens) (span span' : Span) :
    Image σ (s.emitGroup inner span).tokens (s'.emitGroup inner' span').tokens :=
  emit (hinner.append (h.emit (by simp) span span')) (by simp) span span'

end Image

/-! ## The last term -/

/-- What a scan finds in two streams: nothing in either of them, or parts of which one is an image
of the other. The numbers are the tokens that are already behind. -/
inductive SplitsAlike (σ : Substitution) (l r : List Token) (count count' : Nat) :
    Option Nat → Option Nat → Prop
  | missing : SplitsAlike σ l r count count' none none
  | parts {found found' before before' : List Token} (hl : l = found ++ before)
    (hr : r = found' ++ before') (hfound : Image σ found found') (hbefore : Image σ before before') :
    SplitsAlike σ l r count count' (some (count + found.length)) (some (count' + found'.length))

theorem SplitsAlike.add {l r m m' : List Token} {count count' : Nat} {n n' : Option Nat}
    (hm : Image σ m m') (h : SplitsAlike σ l r (count + m.length) (count' + m'.length) n n') :
    SplitsAlike σ (m ++ l) (m' ++ r) count count' n n' := by
  cases h with
  | missing => exact .missing
  | parts hl hr hfound hbefore =>
    have hsome : ∀ c (a b : List Token), c + a.length + b.length = c + (a ++ b).length := by
      intro c a b
      rw [List.length_append, Nat.add_assoc]
    rw [hsome, hsome]
    exact .parts (by rw [hl, List.append_assoc]) (by rw [hr, List.append_assoc]) (hm.append hfound)
      hbefore

/-- A scan that steps over one token. -/
theorem SplitsAlike.cons {x y : Token} {l r : List Token} {count count' : Nat} {n n' : Option Nat}
    (hx : ∀ s, x.kind ≠ .symbol s) (hy : y.kind = x.kind)
    (h : SplitsAlike σ l r (count + 1) (count' + 1) n n') :
    SplitsAlike σ (x :: l) (y :: r) count count' n n' := by
  have hone : Image σ [x] [y] := .same hx hy .nil
  exact SplitsAlike.add hone h

/-- A scan that ends with one token. -/
theorem SplitsAlike.last {x y : Token} {l r : List Token} (hx : ∀ s, x.kind ≠ .symbol s)
    (hy : y.kind = x.kind) (h : Image σ l r) (count count' : Nat) :
    SplitsAlike σ (x :: l) (y :: r) count count' (some (count + 1)) (some (count' + 1)) := by
  have hone : Image σ [x] [y] := .same hx hy .nil
  exact .parts rfl rfl hone h

/-- A scan from the start. -/
theorem SplitsAlike.found {l r m m' : List Token} (hm : Image σ m m') (h : Image σ l r) :
    SplitsAlike σ (m ++ l) (m' ++ r) 0 0 (some m.length) (some m'.length) := by
  have hsome : SplitsAlike σ (m ++ l) (m' ++ r) 0 0 (some (0 + m.length)) (some (0 + m'.length)) :=
    .parts rfl rfl hm h
  rwa [Nat.zero_add, Nat.zero_add] at hsome

theorem Image.groupLength {l r : List Token} (h : Image σ l r) (depth count count' : Nat) :
    SplitsAlike σ l r count count' (Stream.groupLength (depth + 1) count l)
      (Stream.groupLength (depth + 1) count' r) := by
  induction h generalizing depth count count' with
  | nil => exact .missing
  | @same x y l r hx hy h ih =>
    have hadd : ∀ depth, SplitsAlike σ (x :: l) (y :: r) count count'
        (Stream.groupLength (depth + 1) (count + 1) l)
        (Stream.groupLength (depth + 1) (count' + 1) r) := fun depth =>
      (ih depth (count + 1) (count' + 1)).cons hx hy
    unfold Stream.groupLength
    rw [hy]
    cases hkind : x.kind with
    | symbol s => exact absurd hkind (hx s)
    | closing => exact hadd (depth + 1)
    | opening =>
      dsimp only
      split
      · exact .last hx hy h count count'
      · next hdepth =>
        obtain ⟨depth, rfl⟩ : ∃ d, depth = d + 1 := ⟨depth - 1, by omega⟩
        exact hadd depth
    | _ => exact hadd depth
  | @symbol x s term l r hx hterm h ih =>
    rw [Stream.groupLength_of_forms (σ.forms hterm), Stream.groupLength, hx]
    have hone : Image σ [x] (term.reverse ++ []) := .symbol hx hterm .nil
    rw [List.append_nil] at hone
    have hrest := ih depth (count + 1) (count' + term.length)
    rw [← List.length_reverse] at hrest
    simpa using SplitsAlike.add hone hrest

/-- **The last term of an image** is the image of the last term. -/
theorem Image.termLength {l r : List Token} (h : Image σ l r) :
    SplitsAlike σ l r 0 0 (Stream.termLength l) (Stream.termLength r) := by
  induction h with
  | nil => exact .missing
  | @same x y l r hx hy h ih =>
    cases hkind : x.kind with
    | symbol s => exact absurd hkind (hx s)
    | empty =>
      rw [Stream.termLength_cons_operand (.inl hkind),
        Stream.termLength_cons_operand (.inl (hy.trans hkind))]
      exact .last hx hy h 0 0
    | closing =>
      rw [Stream.termLength_cons_closing hkind, Stream.termLength_cons_closing (hy.trans hkind)]
      exact (h.groupLength 0 1 1).cons hx hy
    | closure =>
      rw [Stream.termLength_cons_closure hkind, Stream.termLength_cons_closure (hy.trans hkind)]
      generalize Stream.termLength l = n at ih ⊢
      generalize Stream.termLength r = n' at ih ⊢
      cases ih with
      | missing => exact .missing
      | @parts found found' before before' hl hr hfound hbefore =>
        subst hl hr
        have hsome := SplitsAlike.found (.same hx hy hfound) hbefore
        simpa using hsome
    | opening | alternation | concatenation =>
      have hl : Stream.termLength (x :: l) = none := by simp [Stream.termLength, hkind]
      have hr : Stream.termLength (y :: r) = none := by simp [Stream.termLength, hy, hkind]
      rw [hl, hr]
      exact .missing
  | @symbol x s term l r hx hterm h ih =>
    rw [Stream.termLength_cons_operand (.inr ⟨s, hx⟩),
      Stream.termLength_of_forms (σ.forms hterm)]
    have hone : Image σ [x] (term.reverse ++ []) := .symbol hx hterm .nil
    rw [List.append_nil] at hone
    have hsome := SplitsAlike.found hone h
    simpa using hsome

/-! ## Repetitions and other items -/

/-- What becomes of a stream and of its image: a stream and its image or the same fault, unless the
image has grown too large. -/
inductive Mirrors (σ : Substitution) : Except Error Stream → Except Error Stream → Prop
  | tooLarge {result : Except Error Stream} {e' : Error} (h : e'.fault = .patternTooLarge)
    (hgrows : σ.Grows) : Mirrors σ result (.error e')
  | error {e e' : Error} (h : e'.fault = e.fault) : Mirrors σ (.error e) (.error e')
  | ok {s s' : Stream} (h : Image σ s.tokens s'.tokens) : Mirrors σ (.ok s) (.ok s')

section Items

variable {s s' : Stream}

theorem mirrors_writeOut {length length' min : Nat} {max : Option Nat}
    (h : Image σ s.tokens s'.tokens) (hle : length ≤ length')
    (heq : ¬ σ.Grows → length' = length)
    (hlast : Image σ (s.tokens.take length) (s'.tokens.take length'))
    (hdrop : Image σ (s.dropLast length).tokens (s'.dropLast length').tokens) (span span' : Span) :
    Mirrors σ (s.writeOut length min max span) (s'.writeOut length' min max span') := by
  have hsize : s.size ≤ s'.size := by
    rw [s.size_eq, s'.size_eq]
    exact h.length_le
  have hmul : length * Stream.copies min max ≤ length' * Stream.copies min max :=
    Nat.mul_le_mul_right _ hle
  unfold Stream.writeOut
  by_cases hlarge : length * Stream.copies min max > Stream.maxTokens - s.size
  · rw [if_pos hlarge, if_pos (by omega)]
    exact .error rfl
  · rw [if_neg hlarge]
    by_cases hlarge' : length' * Stream.copies min max > Stream.maxTokens - s'.size
    · have hgrows : σ.Grows := by
        by_contra hσ
        have hsize : s'.size = s.size := by rw [s'.size_eq, s.size_eq, h.length_eq hσ]
        rw [heq hσ, hsize] at hlarge'
        exact hlarge hlarge'
      rw [if_pos hlarge']
      exact .tooLarge rfl hgrows
    · rw [if_neg hlarge']
      have hnot : ∀ s, TokenKind.opening ≠ .symbol s := by simp
      have hopened := hdrop.emit hnot span span'
      exact .ok (((hlast.copying span span').emitRepeated min max hopened).emit (by simp) span span')

/-- **A repetition of an image** is the image of the repetition. -/
theorem mirrors_repeatTerm (h : Image σ s.tokens s'.tokens) (min : Nat) (max : Option Nat)
    (span span' : Span) :
    Mirrors σ (s.repeatTerm min max span) (s'.repeatTerm min max span') := by
  unfold Stream.repeatTerm
  split
  · exact .error rfl
  · split
    · exact .error rfl
    · have hlength := h.termLength
      generalize Stream.termLength s.tokens = length at hlength
      generalize Stream.termLength s'.tokens = length' at hlength
      cases hlength with
      | missing => exact .error rfl
      | @parts found found' before before' hl hr hfound hbefore =>
        rw [Nat.zero_add, Nat.zero_add]
        have hdrop : Image σ (s.dropLast found.length).tokens
            (s'.dropLast found'.length).tokens := by
          show Image σ (s.tokens.drop _) (s'.tokens.drop _)
          rwa [hl, hr, List.drop_left, List.drop_left]
        dsimp only
        split
        · exact .ok h
        · exact .ok (h.emit (by simp) span span')
        · exact .ok (hdrop.emit (by simp) span span')
        · refine mirrors_writeOut h hfound.length_le hfound.length_eq ?_ hdrop span span'
          rwa [hl, hr, List.take_left, List.take_left]

/-- **An item is added to a stream and to its image.** -/
theorem mirrors_addItem (h : Image σ s.tokens s'.tokens) (item : Item) (span span' : Span) :
    Mirrors σ (addItem s span item) (addItem s' span' item) := by
  cases item with
  | repetition min max => exact mirrors_repeatTerm h min max span span'
  | byte b => exact .ok (h.emitByte span span' b)
  | oneOf set => exact .ok (h.emitSet span span' set)
  | quoted bytes => exact .ok (h.emitBytes span span' bytes)
  | action | name => exact .ok h
  | opening | closing | bar => exact .ok (h.emit (by simp) span span')

end Items

/-! ## Patterns -/

/-- What an expansion makes of a stream and of its image; the registries stay aligned. -/
inductive MirrorsExpanded (σ : Substitution) : Expanded → Expanded → Prop
  | tooLarge {result : Expanded} {e' : Error} {registry' : Registry}
    (h : e'.fault = .patternTooLarge) (hgrows : σ.Grows) :
    MirrorsExpanded σ result (.error e', registry')
  | error {e e' : Error} {registry registry' : Registry} (h : e'.fault = e.fault)
    (hregistry : σ.Aligned registry registry') :
    MirrorsExpanded σ (.error e, registry) (.error e', registry')
  | ok {s s' : Stream} {registry registry' : Registry} (h : Image σ s.tokens s'.tokens)
    (hregistry : σ.Aligned registry registry') :
    MirrorsExpanded σ (.ok s, registry) (.ok s', registry')

/-- The same items, with any spans. -/
def SameItems (items items' : List (Item × Span)) : Prop :=
  List.Forall₂ (fun x y => x.1 = y.1) items items'

theorem SameItems.refl (items : List (Item × Span)) : SameItems items items :=
  List.forall₂_same.mpr fun _ _ => rfl

variable {macros : Macros}

/-- **The items of a pattern lead from a stream and its image to a stream and its image.** -/
theorem mirrors_expand {expanding : List Bytes} {origin : Option Span} (origin' : Option Span)
    {items items' : List (Item × Span)} {fault fault' : Option Error} {s s' : Stream}
    {registry registry' : Registry} (h : Image σ s.tokens s'.tokens)
    (hregistry : σ.Aligned registry registry') (hitems : SameItems items items')
    (hfault : fault'.map Error.fault = fault.map Error.fault) :
    MirrorsExpanded σ (expand macros expanding origin items fault s registry)
      (expand macros expanding origin' items' fault' s' registry') := by
  fun_induction expand macros expanding origin items fault s registry
    generalizing origin' items' fault' s' registry' with
  | case1 expanding origin fault stream registry =>
    cases hitems
    rw [expand.eq_def]
    cases fault with
    | none =>
      obtain rfl := Option.map_eq_none_iff.mp hfault
      exact .ok h hregistry
    | some e =>
      obtain ⟨e', rfl, he⟩ := Option.map_eq_some_iff.mp hfault
      exact .error he hregistry
  | case2 expanding origin fault stream registry itemSpan rest span text =>
    next ih =>
    obtain ⟨⟨_, span'⟩, rest', rfl, hrest, rfl⟩ := List.forall₂_cons_left_iff.mp hitems
    rw [expand]
    exact ih _ (h.emit_symbol (σ.action hregistry _) _) (σ.add hregistry text) hrest hfault
  | case3 expanding origin fault stream registry itemSpan rest span b hbody =>
    next ih =>
    obtain ⟨⟨_, span'⟩, rest', rfl, hrest, rfl⟩ := List.forall₂_cons_left_iff.mp hitems
    rw [expand_letter hbody]
    exact ih _ (h.emitByte _ _ b) hregistry hrest hfault
  | case4 expanding origin fault stream registry itemSpan rest span name hbody =>
    next hletter =>
    obtain ⟨⟨_, span'⟩, rest', rfl, hrest, rfl⟩ := List.forall₂_cons_left_iff.mp hitems
    have hname : ∀ b, name ≠ [b] := by
      rintro b rfl
      exact hletter b hbody rfl HEq.rfl
    rw [expand_unknown hbody hname]
    exact .error rfl hregistry
  | case5 expanding origin fault stream registry itemSpan rest span name body hbody =>
    next hname =>
    obtain ⟨⟨_, span'⟩, rest', rfl, hrest, rfl⟩ := List.forall₂_cons_left_iff.mp hitems
    rw [expand_recursive hbody hname]
    exact .error rfl hregistry
  | case6 expanding origin fault stream registry itemSpan rest span name body hbody hname reading e
      registry₁ =>
    next hinner ihInner =>
    obtain ⟨⟨_, span'⟩, rest', rfl, hrest, rfl⟩ := List.forall₂_cons_left_iff.mp hitems
    rw [expand_reference hbody hname]
    have hnil : Image σ Stream.empty.tokens Stream.empty.tokens := .nil
    have hbodies := ihInner (some (origin'.getD span')) hnil hregistry (SameItems.refl _) rfl
    rw [hinner] at hbodies
    generalize expand macros (name :: expanding) (some (origin'.getD span')) (lex body).items
      (lex body).error .empty registry' = result at hbodies ⊢
    cases hbodies with
    | tooLarge hlarge hgrows => exact .tooLarge hlarge hgrows
    | error he hregistry' => exact .error he hregistry'
  | case7 expanding origin fault stream registry itemSpan rest span name body hbody hname reading
      inner registry₁ hinner =>
    next ihInner ih =>
    obtain ⟨⟨_, span'⟩, rest', rfl, hrest, rfl⟩ := List.forall₂_cons_left_iff.mp hitems
    rw [expand_reference hbody hname]
    have hnil : Image σ Stream.empty.tokens Stream.empty.tokens := .nil
    have hbodies := ihInner (some (origin'.getD span')) hnil hregistry (SameItems.refl _) rfl
    rw [hinner] at hbodies
    generalize expand macros (name :: expanding) (some (origin'.getD span')) (lex body).items
      (lex body).error .empty registry' = result at hbodies ⊢
    cases hbodies with
    | tooLarge hlarge hgrows => exact .tooLarge hlarge hgrows
    | ok himage hregistry' => exact ih _ (h.emitGroup himage _ _) hregistry' hrest hfault
  | case8 expanding origin fault stream registry itemSpan rest span item haction hname e =>
    next hadd =>
    obtain ⟨⟨item', span'⟩, rest', hitem, hrest, rfl⟩ := List.forall₂_cons_left_iff.mp hitems
    obtain rfl : item = item' := hitem
    rw [expand_item haction hname]
    have hadded := mirrors_addItem h item span (origin'.getD span')
    rw [hadd] at hadded
    generalize addItem s' (origin'.getD span') item = result at hadded ⊢
    cases hadded with
    | tooLarge hlarge hgrows => exact .tooLarge hlarge hgrows
    | error he => exact .error he hregistry
  | case9 expanding origin fault stream registry itemSpan rest span item haction hname added hadd =>
    next ih =>
    obtain ⟨⟨item', span'⟩, rest', hitem, hrest, rfl⟩ := List.forall₂_cons_left_iff.mp hitems
    obtain rfl : item = item' := hitem
    rw [expand_item haction hname]
    have hadded := mirrors_addItem h item span (origin'.getD span')
    rw [hadd] at hadded
    generalize addItem s' (origin'.getD span') item = result at hadded ⊢
    cases hadded with
    | tooLarge hlarge hgrows => exact .tooLarge hlarge hgrows
    | ok himage => exact ih _ himage hregistry hrest hfault

/-! ## Trees -/

theorem Forms.total_weight {level : Level} {l : List Token} {t : Tree} (h : Forms level l t) :
    total TokenKind.weight l = 1 := by
  induction h with
  | symbol hx | empty hx => simp [hx, TokenKind.weight]
  | group hx _ hy ih => simp [hx, hy, ih, TokenKind.weight]
  | closure _ hx ih => simp [hx, ih, TokenKind.weight]
  | term _ ih => exact ih
  | sequence _ ih => exact ih
  | concat _ hx _ ihl ihr | alternate _ hx _ ihl ihr => simp [hx, ihl, ihr, TokenKind.weight]

theorem Forms.exists_not_isParen {level : Level} {l : List Token} {t : Tree} (h : Forms level l t) :
    ∃ x ∈ l, x.kind.isParen = false := by
  induction h with
  | symbol hx | empty hx => exact ⟨_, List.mem_cons_self, by rw [hx]; rfl⟩
  | group _ _ _ ih =>
    obtain ⟨x, hx, hparen⟩ := ih
    exact ⟨x, by simp [hx], hparen⟩
  | @closure x => exact ⟨x, by simp, by simp [*, TokenKind.isParen]⟩
  | term _ ih => exact ih
  | sequence _ ih => exact ih
  | @concat x | @alternate x => exact ⟨x, by simp, by simp [*, TokenKind.isParen]⟩

namespace Image

variable {l r : List Token}

theorem linked (h : Image σ l r) (hl : Linked l) : Linked r := by
  induction h with
  | nil => trivial
  | @same x y l r hx hy h ih =>
    exact ⟨fun hstarts => h.endsTerm_eq.trans (hl.1 (hy ▸ hstarts)), ih hl.2⟩
  | @symbol x s term l r hx hterm h ih =>
    have hends := hl.1 (by rw [hx]; rfl)
    exact (σ.forms hterm).copyable.chained.linked.append (ih hl.2) (h.endsTerm_eq.trans hends)

theorem openAfter_eq (h : Image σ l r) : openAfter r = openAfter l := by
  induction h with
  | nil => rfl
  | same _ hy _ ih => rw [openAfter_cons, openAfter_cons, hy, ih]
  | symbol hx hterm _ ih =>
    rw [(σ.forms hterm).balanced.openAfter_reverse_append, openAfter_cons, hx, ih]
    exact (Option.bind_fun_some _).symm

theorem total_weight_eq (h : Image σ l r) :
    total TokenKind.weight r = total TokenKind.weight l := by
  induction h with
  | nil => rfl
  | same _ hy _ ih => rw [total_cons, total_cons, hy, ih]
  | symbol hx hterm _ ih =>
    rw [total_append, total_reverse, (σ.forms hterm).total_weight, total_cons, hx, ih]
    rfl

theorem parens_iff (h : Image σ l r) :
    (∀ x ∈ r, x.kind.isParen = true) ↔ ∀ x ∈ l, x.kind.isParen = true := by
  induction h with
  | nil => simp
  | same _ hy _ ih => rw [List.forall_mem_cons, List.forall_mem_cons, hy, ih]
  | symbol hx hterm _ _ =>
    obtain ⟨y, hy, hparen⟩ := (σ.forms hterm).exists_not_isParen
    constructor
    · intro hall
      rw [hall y (List.mem_append_left _ (List.mem_reverse.mpr hy))] at hparen
      exact absurd hparen (by decide)
    · intro hall
      have hsymbol := hall _ List.mem_cons_self
      rw [hx] at hsymbol
      exact absurd hsymbol (by simp [TokenKind.isParen])

theorem exists_of_singleton {x : Token} (h : Image σ [x] r) (hx : ∀ s, x.kind ≠ .symbol s) :
    ∃ y, r = [y] ∧ y.kind = x.kind := by
  cases h with
  | @same _ y _ _ _ hy hnil =>
    cases hnil
    exact ⟨y, rfl, hy⟩
  | symbol hsymbol => exact absurd hsymbol (hx _)

end Image

/-- **The image of a part of a sentence is a part of a sentence**, with trees in the place of
symbols. -/
theorem Forms.image {level : Level} {l r : List Token} {t : Tree} (h : Forms level l t)
    (himage : Image σ l.reverse r) : Forms level r.reverse (t.substitute σ.tree) := by
  induction h generalizing r with
  | @symbol x s hx =>
    cases himage with
    | same hnot => exact absurd hx (hnot s)
    | symbol hs hterm hnil =>
      obtain rfl : s = _ := TokenKind.symbol.inj (hx.symm.trans hs)
      cases hnil
      rw [List.append_nil, List.reverse_reverse]
      exact σ.forms hterm
  | empty hx =>
    obtain ⟨y, rfl, hy⟩ := himage.exists_of_singleton (by simp [hx])
    exact .empty (hy.trans hx)
  | @group x y l t hx _ hy ih =>
    rw [List.reverse_append] at himage
    obtain ⟨m, m', rfl, hclosing, hrest⟩ := Image.exists_of_append himage
    obtain ⟨y', rfl, hy'⟩ := hclosing.exists_of_singleton (by simp [hy])
    rw [List.reverse_cons] at hrest
    obtain ⟨n, n', rfl, hl, hopening⟩ := hrest.exists_of_append
    obtain ⟨x', rfl, hx'⟩ := hopening.exists_of_singleton (by simp [hx])
    have hgroup := Forms.group (hx'.trans hx) (ih hl) (hy'.trans hy)
    simpa using hgroup
  | @closure x l t _ hx ih =>
    rw [List.reverse_append] at himage
    obtain ⟨m, m', rfl, hclosure, hl⟩ := himage.exists_of_append
    obtain ⟨x', rfl, hx'⟩ := hclosure.exists_of_singleton (by simp [hx])
    have hclosed := Forms.closure (ih hl) (hx'.trans hx)
    simpa [Tree.substitute] using hclosed
  | term _ ih => exact .term (ih himage)
  | @concat x l r t u _ hx _ ihl ihr =>
    rw [List.reverse_append, List.reverse_cons, List.append_assoc] at himage
    obtain ⟨m, m', rfl, hr, hrest⟩ := himage.exists_of_append
    obtain ⟨n, n', rfl, hoperator, hl⟩ := hrest.exists_of_append
    obtain ⟨x', rfl, hx'⟩ := hoperator.exists_of_singleton (by simp [hx])
    have hconcat := Forms.concat (ihl hl) (hx'.trans hx) (ihr hr)
    simpa [Tree.substitute] using hconcat
  | sequence _ ih => exact .sequence (ih himage)
  | @alternate x l r t u _ hx _ ihl ihr =>
    rw [List.reverse_append, List.reverse_cons, List.append_assoc] at himage
    obtain ⟨m, m', rfl, hr, hrest⟩ := himage.exists_of_append
    obtain ⟨n, n', rfl, hoperator, hl⟩ := hrest.exists_of_append
    obtain ⟨x', rfl, hx'⟩ := hoperator.exists_of_singleton (by simp [hx])
    have halternate := Forms.alternate (ihl hl) (hx'.trans hx) (ihr hr)
    simpa [Tree.substitute] using halternate

section Trees

variable {s s' : Stream} (h : Image σ s.tokens s'.tokens) (hs : Linked s.tokens)

include h hs

/-- **The tree of an image.** -/
theorem treeOfStream_image {t : Tree} (htree : treeOfStream s = .ok t) :
    treeOfStream s' = .ok (t.substitute σ.tree) := by
  rcases forms_or_parens_of_treeOfStream hs htree with hforms | ⟨hparens, hopen, rfl⟩
  · exact treeOfStream_of_forms (hforms.image (by rwa [List.reverse_reverse]))
  · exact treeOfStream_of_parens (h.parens_iff.mpr hparens) (h.openAfter_eq.trans hopen)

/-- If an image has a tree, then it has one because the stream has one. -/
theorem exists_treeOfStream_of_image {t' : Tree} (htree : treeOfStream s' = .ok t') :
    ∃ t, treeOfStream s = .ok t ∧ t' = t.substitute σ.tree := by
  have hexists : ∃ t, treeOfStream s = .ok t := by
    rcases forms_or_parens_of_treeOfStream (h.linked hs) htree with
      hforms | ⟨hparens, hopen, -⟩
    · have hweight := hforms.total_weight
      rw [total_reverse, h.total_weight_eq] at hweight
      have hopen := hforms.balanced 0
      obtain ⟨hends, hsound⟩ := sound_of_total_weight hs hweight
      obtain ⟨t, ht⟩ := exists_forms hs hsound (h.openAfter_eq.symm.trans hopen) hends
      exact ⟨t, treeOfStream_of_forms ht⟩
    · exact ⟨_, treeOfStream_of_parens (h.parens_iff.mp hparens)
        (h.openAfter_eq.symm.trans hopen)⟩
  obtain ⟨t, ht⟩ := hexists
  exact ⟨t, ht, Except.ok.inj (htree.symm.trans (treeOfStream_image h hs ht))⟩

end Trees

/-! ## Moved tokens -/

/-- Symbols as they are behind `k` registered action blocks. -/
def Substitution.moved (k : Nat) : Substitution where
  Stands s term := ∃ x : Token, term = [x] ∧ x.kind = (TokenKind.symbol s).shift k
  tree s := (Tree.symbol s).shift k
  Aligned registry registry' := registry'.size = k + registry.size
  forms := by
    rintro s term ⟨x, rfl, hx⟩
    cases s with
    | byte b => exact .symbol hx
    | action index => exact .symbol hx
  byte b span := ⟨_, rfl, rfl⟩
  action hsize span := ⟨_, rfl, by rw [hsize]; rfl⟩
  add hsize text := by
    rw [Registry.size_add, Registry.size_add, hsize]
    omega

theorem Tree.substitute_moved_zero (t : Tree) :
    t.substitute (Substitution.moved 0).tree = t := by
  induction t with
  | symbol s =>
    show (Tree.symbol s).shift 0 = Tree.symbol s
    cases s with
    | byte b => rfl
    | action index => simp [Tree.shift]
  | empty => rfl
  | concat l r ihl ihr | alternate l r ihl ihr => simp only [Tree.substitute, ihl, ihr]
  | closure t ih => simp only [Tree.substitute, ih]

/-- Tokens behind `k` registered action blocks. -/
theorem image_moved (k before : Nat) (l : List Token) :
    Image (.moved k) l (l.map (Token.move k before)) := by
  induction l with
  | nil => exact .nil
  | cons x l ih =>
    rw [List.map_cons]
    by_cases hx : ∃ s, x.kind = .symbol s
    · obtain ⟨s, hs⟩ := hx
      have hmoved : (Token.move k before x).kind = (TokenKind.symbol s).shift k :=
        congrArg (TokenKind.shift k) hs
      have hstands : (Substitution.moved k).Stands s [Token.move k before x] := ⟨_, rfl, hmoved⟩
      exact .symbol hs hstands ih
    · have hx : ∀ s, x.kind ≠ .symbol s := not_exists.mp hx
      refine .same hx ?_ ih
      show x.kind.shift k = x.kind
      cases hkind : x.kind with
      | symbol s => exact absurd hkind (hx s)
      | _ => rfl

end ActionRegex.Pattern
