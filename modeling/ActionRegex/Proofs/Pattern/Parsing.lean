import ActionRegex.Pattern.Parser
import ActionRegex.Proofs.Pattern.Lexing
import ActionRegex.Proofs.Pattern.Repetitions

/-!
# Sentences and streams

The items of a pattern without macros are added to a token stream one after the other
(`expand_eq_addAll`). The items of a sentence become tokens of a sentence with the same tree, if no
repetition is refused (`Derives.adds`).

In the other direction, each item that is added to a stream with nothing wrong leads from one
beginning of a sentence to a longer one, or leaves something wrong with the stream (`Begins.add`).
That is never mended by later items, and it shows in the number of operands that are left in the
end, so a pattern with a tree is a sentence.
-/

namespace ActionRegex.Pattern

/-! ## Adding items -/

/-- Whether a repetition is refused for its bounds or its size. -/
def Fault.refusesRepetition : Fault → Bool
  | .invalidRepetition | .tooManyRepetitions | .patternTooLarge => true
  | _ => false

namespace Stream

/-- The stream after an item of a pattern without macros. -/
def add (s : Stream) (x : Lexeme) : Except Error Stream :=
  match x.item with
  | .action _ => .ok (s.emit (.symbol (.action x.index)) x.span)
  | .name name =>
    match name with
    | [b] => .ok (s.emitByte x.span b)
    | _ => .error ⟨.unknownMacro name, x.span⟩
  | item => addItem s x.span item

section Add

variable {x : Lexeme}

theorem add_opening (hx : x.item = .opening) (s : Stream) :
    s.add x = .ok (s.emit .opening x.span) := by
  rw [add, hx]
  rfl

theorem add_closing (hx : x.item = .closing) (s : Stream) :
    s.add x = .ok (s.emit .closing x.span) := by
  rw [add, hx]
  rfl

theorem add_bar (hx : x.item = .bar) (s : Stream) : s.add x = .ok (s.emit .alternation x.span) := by
  rw [add, hx]
  rfl

theorem add_repetition {min : Nat} {max : Option Nat} (hx : x.item = .repetition min max)
    (s : Stream) : s.add x = s.repeatTerm min max x.span := by
  rw [add, hx]
  rfl

end Add

/-- The stream after items of a pattern without macros. -/
def addAll (s : Stream) : List Lexeme → Except Error Stream
  | [] => .ok s
  | x :: rest => (s.add x).bind fun s => s.addAll rest

theorem addAll_cons_of_ok {s s' : Stream} {x : Lexeme} (h : s.add x = .ok s') (l : List Lexeme) :
    s.addAll (x :: l) = s'.addAll l := by
  rw [addAll, h]
  rfl

theorem addAll_singleton (s : Stream) (x : Lexeme) : s.addAll [x] = s.add x := by
  unfold addAll
  cases s.add x with
  | error e => rfl
  | ok s' => rfl

theorem addAll_append (s : Stream) (l r : List Lexeme) :
    s.addAll (l ++ r) = (s.addAll l).bind fun s => s.addAll r := by
  induction l generalizing s with
  | nil => rfl
  | cons x l ih =>
    rw [List.cons_append, addAll, addAll]
    cases s.add x with
    | error e => rfl
    | ok s' => exact ih s'

theorem addAll_append_of_error {s : Stream} {l : List Lexeme} {e : Error}
    (h : s.addAll l = .error e) (r : List Lexeme) : s.addAll (l ++ r) = .error e := by
  rw [addAll_append, h]
  rfl

theorem addAll_append_of_ok {s s' : Stream} {l : List Lexeme} (h : s.addAll l = .ok s')
    (r : List Lexeme) : s.addAll (l ++ r) = s'.addAll r := by
  rw [addAll_append, h]
  rfl

theorem exists_of_addAll_cons {s s' : Stream} {x : Lexeme} {l : List Lexeme}
    (h : s.addAll (x :: l) = .ok s') : ∃ s₁, s.add x = .ok s₁ ∧ s₁.addAll l = .ok s' := by
  rw [addAll] at h
  cases hadd : s.add x with
  | error e =>
    rw [hadd] at h
    exact absurd h (by simp [Except.bind])
  | ok s₁ =>
    rw [hadd] at h
    exact ⟨s₁, rfl, h⟩

end Stream

/-- A stream, refused if the reading of the items ended with a fault. -/
def refuseFault (fault : Option Error) (s : Stream) : Except Error Stream :=
  match fault with
  | none => .ok s
  | some e => .error e

/-- **Without macros, expanding a pattern adds its items one after the other.** -/
theorem expand_eq_addAll {macros : Macros} {items : List (Item × Span)} (fault : Option Error)
    (hmacros : ∀ name span, (.name name, span) ∈ items → macros.body? name = none)
    (stream : Stream) (registry : Registry) :
    (expand macros [] none items fault stream registry).1 =
      (stream.addAll (lexemes registry.size items)).bind (refuseFault fault) := by
  induction items generalizing stream registry with
  | nil =>
    rw [expand.eq_def]
    rfl
  | cons entry rest ih =>
    obtain ⟨item, span⟩ := entry
    have hrest : ∀ name span, (.name name, span) ∈ rest → macros.body? name = none :=
      fun name span hmem => hmacros name span (List.mem_cons_of_mem _ hmem)
    cases item with
    | action text =>
      rw [expand]
      exact (ih hrest _ _).trans (by rw [registry.size_add]; rfl)
    | name name =>
      have hbody := hmacros name span List.mem_cons_self
      rw [expand]
      split
      · cases name with
        | nil => rfl
        | cons b more =>
          cases more with
          | nil => exact ih hrest _ _
          | cons c more => rfl
      · next body hsome => rw [hbody] at hsome; simp at hsome
    | repetition min max =>
      rw [expand]
      · simp only [lexemes, Stream.addAll, Stream.add, addItem, Option.getD_none]
        cases stream.repeatTerm min max span with
        | error e => rfl
        | ok s => exact ih hrest s registry
      all_goals simp
    | _ =>
      rw [expand]
      · exact ih hrest _ registry
      all_goals simp

/-! ## Atoms -/

/-- Sets among the items have a member. -/
def Lexeme.HasMember (x : Lexeme) : Prop := ∀ set, x.item = .oneOf set → set.toList ≠ []

theorem Joint.suffix {tokens joint : List Token} (h : Joint tokens joint) : tokens <:+ joint := by
  cases h with
  | fresh => exact List.suffix_rfl
  | behind => exact List.suffix_cons _ _

theorem Joint.openAfter_eq {tokens joint : List Token} (h : Joint tokens joint) :
    openAfter joint = openAfter tokens := by
  cases h with
  | fresh => rfl
  | behind _ hx =>
    rw [openAfter_cons, hx]
    exact Option.bind_fun_some _

namespace Stream

theorem chained_foldl {α : Type} {f : Stream → α → Stream}
    (hf : ∀ s a, Chained s.tokens → Chained (f s a).tokens) {s : Stream} (h : Chained s.tokens)
    (l : List α) : Chained (l.foldl f s).tokens := by
  induction l generalizing s with
  | nil => exact h
  | cons a l ih => exact ih (hf s a h)

theorem chained_emitBytes {s : Stream} (h : Chained s.tokens) (span : Span) (bytes : Bytes) :
    Chained (s.emitBytes span bytes).tokens := by
  unfold emitBytes
  split
  · exact chained_emit h _ span
  · exact chained_emit h _ span
  · refine chained_emit (chained_foldl (fun s b hs => ?_) (chained_emit h _ span) bytes) _ span
    exact chained_emit hs _ span

theorem chained_emitSet {s : Stream} (h : Chained s.tokens) (span : Span) (set : ByteSet) :
    Chained (s.emitSet span set).tokens := by
  unfold emitSet
  split
  · exact h
  · exact chained_emit h _ span
  · next b rest _ _ =>
    have hfirst : Chained ((s.emit .opening span).emitByte span b).tokens :=
      chained_emit (chained_emit h _ span) _ span
    refine chained_emit (chained_foldl (fun s b hs => ?_) hfirst rest) _ span
    exact chained_emit (chained_emit hs _ span) _ span

/-- **An atom becomes a term with its tree.** -/
theorem exists_add_atom {x : Lexeme} {t : Tree} (hx : x.atom? = some t) (hset : x.HasMember)
    (s : Stream) : ∃ s' joint, s.add x = .ok s' ∧ (Chained s.tokens → Chained s'.tokens) ∧
      Joint s.tokens joint ∧ Ends s'.tokens .term t joint := by
  obtain ⟨item, span, index⟩ := x
  unfold Lexeme.atom? at hx
  simp only at hx
  split at hx
  · obtain rfl := Option.some.inj hx
    obtain ⟨joint, hjoint, hends⟩ := s.exists_ends_emitByte span _
    exact ⟨_, joint, rfl, fun h => chained_emit h _ span, hjoint, hends⟩
  · obtain rfl := Option.some.inj hx
    obtain ⟨joint, hjoint, hends⟩ := s.exists_ends_emitSet span (hset _ rfl)
    exact ⟨_, joint, rfl, fun h => chained_emitSet h span _, hjoint, hends⟩
  · obtain rfl := Option.some.inj hx
    obtain ⟨joint, hjoint, hends⟩ := s.exists_ends_emitBytes span _
    exact ⟨_, joint, rfl, fun h => chained_emitBytes h span _, hjoint, hends⟩
  · obtain rfl := Option.some.inj hx
    obtain ⟨joint, hjoint, hends⟩ := s.exists_ends_emit
      (show TokenKind.startsTerm (.symbol (.action index)) = true from rfl)
      fun joint => Ends.symbol (x := ⟨.symbol (.action index), span⟩) rfl joint
    exact ⟨_, joint, rfl, fun h => chained_emit h _ span, hjoint, hends⟩
  · obtain rfl := Option.some.inj hx
    obtain ⟨joint, hjoint, hends⟩ := s.exists_ends_emitByte span _
    exact ⟨_, joint, rfl, fun h => chained_emit h _ span, hjoint, hends⟩
  · simp at hx

/-! ## From sentences to streams -/

/-- What a repetition makes of a stream whose last `n` tokens become a term with the tree `t`
wherever they are added. One copy and the closure leave the tokens as they are. -/
inductive Repeats (s : Stream) (n : Nat) (t : Tree) (min : Nat) (max : Option Nat) (span : Span) :
    Except Error Stream → Prop
  | refused {e : Error} (h : e.fault.refusesRepetition = true)
    (hvalid : ValidBounds min max → e.fault = .patternTooLarge) :
    Repeats s n t min max span (.error e)
  | once (hmin : min = 1) (hmax : max = some 1) : Repeats s n t min max span (.ok s)
  | closure (hmin : min = 0) (hmax : max = none) :
    Repeats s n t min max span (.ok (s.emit .closure span))
  | written {s' : Stream} (hstar : ¬ (min = 0 ∧ max = none))
    (hchained : Chained s.tokens → Chained s'.tokens)
    (hends : Ends s'.tokens .term (t.repeated min max) (s.dropLast n).tokens) :
    Repeats s n t min max span (.ok s')

theorem repeats_repeatTerm {s : Stream} {n : Nat} {t : Tree}
    (hlength : termLength s.tokens = some n) (hterm : Writes (s.lastTokens n) t)
    (hbase : endsTerm (s.dropLast n).tokens = false) (min : Nat) (max : Option Nat) (span : Span) :
    Repeats s n t min max span (s.repeatTerm min max span) := by
  unfold repeatTerm
  split
  · next hinvalid => exact .refused rfl fun hvalid => absurd hinvalid hvalid.not_any_lt
  · next hinvalid =>
    split
    · next hmany => exact .refused rfl fun hvalid => absurd hmany hvalid.not_any_gt
    · rw [hlength]
      simp only
      split
      · exact .once rfl rfl
      · exact .closure rfl rfl
      · -- the empty text takes the place of the term
        obtain rfl : min = 0 := by simpa using hinvalid
        refine .written (by simp) (fun hs => chained_emit ?_ _ span)
          (ends_dropLast_emit_empty hbase span)
        rw [← List.take_append_drop n s.tokens] at hs
        exact hs.of_append_right
      · next hzero _ hmany =>
        have hmin : max = none → 0 < min := fun hnone =>
          Nat.pos_of_ne_zero fun hzero => hmany hzero hnone
        have hmax : ∀ m, max = some m → 0 < m ∧ min ≤ m := by
          rintro m rfl
          exact ⟨Nat.pos_of_ne_zero fun h => hzero (congrArg some h), by simpa using hinvalid⟩
        rcases ends_writeOut hterm hbase span hmin hmax with
          ⟨e, herror, hlarge⟩ | ⟨s', hok, hchained, hwritten⟩
        · rw [herror]
          exact .refused (by rw [hlarge]; rfl) fun _ => hlarge
        · rw [hok]
          exact .written (fun hstar => hmany hstar.1 hstar.2) hchained hwritten

/-- A repetition behind a term of the grammar is refused, or becomes a term with its tree. -/
theorem ends_repeatTerm {s : Stream} {t : Tree} {base : List Token}
    (hbase : endsTerm base = false) (hends : Ends s.tokens .term t base) (min : Nat)
    (max : Option Nat) (span : Span) :
    (∃ e, s.repeatTerm min max span = .error e ∧ e.fault.refusesRepetition = true ∧
        (ValidBounds min max → e.fault = .patternTooLarge)) ∨
      ∃ s', s.repeatTerm min max span = .ok s' ∧ (Chained s.tokens → Chained s'.tokens) ∧
        Ends s'.tokens .term (t.repeated min max) base := by
  obtain ⟨term, hterm, htokens⟩ := id hends
  have hlength : termLength s.tokens = some term.length := by
    rw [htokens, termLength_of_forms hterm]
  have hdrop : (s.dropLast term.length).tokens = base := tokens_dropLast htokens
  have hwrites : Writes (s.lastTokens term.length) t := by
    rw [lastTokens_eq htokens]
    exact writes_of_forms hterm
  have hrepeats := repeats_repeatTerm hlength hwrites (hdrop ▸ hbase) min max span
  generalize s.repeatTerm min max span = result at hrepeats ⊢
  cases hrepeats with
  | @refused e hrefuses hvalid => exact .inl ⟨e, rfl, hrefuses, hvalid⟩
  | once hmin hmax =>
    subst hmin hmax
    exact .inr ⟨s, rfl, id, hends⟩
  | closure hmin hmax =>
    subst hmin hmax
    refine .inr ⟨_, rfl, fun hs => chained_emit hs _ span, ?_⟩
    rw [emit_operator rfl (by decide)]
    exact hends.closure rfl
  | @written s' _ hchained hwritten => exact .inr ⟨s', rfl, hchained, hdrop ▸ hwritten⟩

end Stream

/-- What adding items to a stream gives: a refused repetition, or a stream that ends with new tokens
of a level. -/
def Adds (s : Stream) (l : List Lexeme) (level : Level) (t : Tree) : Prop :=
  (∃ e, s.addAll l = .error e ∧ e.fault.refusesRepetition = true) ∨
    ∃ s' joint, s.addAll l = .ok s' ∧ Chained s'.tokens ∧ Joint s.tokens joint ∧
      Ends s'.tokens level t joint

theorem Adds.imp {s : Stream} {l : List Lexeme} {level level' : Level} {t : Tree}
    (h : Adds s l level t) (hlevel : ∀ {tokens base}, Ends tokens level t base →
      Ends tokens level' t base) : Adds s l level' t := by
  rcases h with h | ⟨s', joint, hadd, hchained, hjoint, hends⟩
  · exact .inl h
  · exact .inr ⟨s', joint, hadd, hchained, hjoint, hlevel hends⟩

/-- Items are added one after another: more of them go on from where the first ones ended. -/
theorem Adds.append {s : Stream} {l r : List Lexeme} {level level' : Level} {t t' : Tree}
    (h : Adds s l level t)
    (hmore : ∀ {s' : Stream} {joint : List Token}, Chained s'.tokens → Joint s.tokens joint →
      Ends s'.tokens level t joint →
      (∃ e, s'.addAll r = .error e ∧ e.fault.refusesRepetition = true) ∨
        ∃ s'', s'.addAll r = .ok s'' ∧ Chained s''.tokens ∧ Ends s''.tokens level' t' joint) :
    Adds s (l ++ r) level' t' := by
  rcases h with ⟨e, he, hrefuses⟩ | ⟨s', joint, hadd, hchained, hjoint, hends⟩
  · exact .inl ⟨e, Stream.addAll_append_of_error he _, hrefuses⟩
  · rw [Adds, Stream.addAll_append_of_ok hadd]
    rcases hmore hchained hjoint hends with herror | ⟨s'', hok, hchained', hends'⟩
    · exact .inl herror
    · exact .inr ⟨s'', joint, hok, hchained', hjoint, hends'⟩

/-- **The items of a part of a sentence become tokens with the same tree.** -/
theorem Derives.adds {level : Level} {l : List Lexeme} {t : Tree} (h : Derives level l t)
    (hsets : ∀ x ∈ l, x.HasMember) {s : Stream} (hs : Chained s.tokens) : Adds s l level t := by
  induction h generalizing s with
  | @atom x t hx =>
    obtain ⟨s', joint, hadd, hchained, hjoint, hends⟩ :=
      s.exists_add_atom hx (hsets x List.mem_cons_self)
    exact .inr ⟨s', joint, by rw [Stream.addAll_singleton, hadd], hchained hs, hjoint, hends⟩
  | @emptyGroup x y hx hy =>
    obtain ⟨joint, hjoint, hends⟩ := s.exists_ends_emptyGroup x.span y.span
    refine .inr ⟨_, joint, ?_, Stream.chained_emit (Stream.chained_emit hs _ _) _ _, hjoint, hends⟩
    rw [Stream.addAll_cons_of_ok (Stream.add_opening hx s), Stream.addAll_singleton,
      Stream.add_closing hy]
  | @group x y l t hx _ hy ih =>
    have hl : ∀ z ∈ l, z.HasMember := fun z hz =>
      hsets z (List.mem_append_left _ (List.mem_cons_of_mem _ hz))
    have hopening : TokenKind.opening.startsTerm = true := rfl
    obtain ⟨joint, hjoint, htokens⟩ := Stream.emit_of_startsTerm s x.span hopening
    have hopened : s.addAll (x :: l ++ [y]) = (s.emit .opening x.span).addAll (l ++ [y]) :=
      Stream.addAll_cons_of_ok (Stream.add_opening hx s) _
    rw [Adds, hopened]
    rcases ih hl (Stream.chained_emit hs _ x.span) with
      ⟨e, he, hrefuses⟩ | ⟨s', joint', hadd, hchained, hjoint', hends⟩
    · exact .inl ⟨e, Stream.addAll_append_of_error he _, hrefuses⟩
    · rw [hjoint'.eq_of_endsTerm (by rw [htokens]; rfl), htokens] at hends
      refine .inr ⟨_, joint, ?_, Stream.chained_emit hchained .closing y.span, hjoint, ?_⟩
      · rw [Stream.addAll_append_of_ok hadd, Stream.addAll_singleton, Stream.add_closing hy]
      · rw [Stream.emit_closing_of_endsTerm hends.endsTerm_eq]
        exact hends.group rfl rfl
  | @repetition x l t min max _ hx ih =>
    have hl : ∀ y ∈ l, y.HasMember := fun y hy => hsets y (List.mem_append_left _ hy)
    refine (ih hl hs).append fun hchained hjoint hends => ?_
    rw [Stream.addAll_singleton, Stream.add_repetition hx]
    rcases Stream.ends_repeatTerm hjoint.endsTerm_eq hends min max x.span with
      ⟨e, herror, hrefuses, -⟩ | ⟨s'', hok, hchained', hends'⟩
    · exact .inl ⟨e, herror, hrefuses⟩
    · exact .inr ⟨s'', hok, hchained' hchained, hends'⟩
  | term _ ih => exact (ih hsets hs).imp Ends.sequence_of_term
  | @concat l r t u _ _ ihl ihr =>
    have hl : ∀ y ∈ l, y.HasMember := fun y hy => hsets y (List.mem_append_left _ hy)
    have hr : ∀ y ∈ r, y.HasMember := fun y hy => hsets y (List.mem_append_right _ hy)
    refine (ihl hl hs).append fun hchained hjoint hends => ?_
    refine (ihr hr hchained).imp_right ?_
    rintro ⟨s'', joint', hok, hchained', hjoint', hends'⟩
    exact ⟨s'', hok, hchained', hends.concat hjoint' hends'⟩
  | sequence _ ih => exact (ih hsets hs).imp Ends.alternatives_of_sequence
  | @alternate x l r t u _ hx _ ihl ihr =>
    have hl : ∀ y ∈ l, y.HasMember := fun y hy => hsets y (List.mem_append_left _ hy)
    have hr : ∀ y ∈ r, y.HasMember := fun y hy =>
      hsets y (List.mem_append_right _ (List.mem_cons_of_mem _ hy))
    refine (ihl hl hs).append fun {s' joint} hchained hjoint hends => ?_
    have hbar : (s'.emit .alternation x.span).tokens = ⟨.alternation, x.span⟩ :: s'.tokens :=
      Stream.emit_operator rfl (by decide)
    rw [Stream.addAll_cons_of_ok (Stream.add_bar hx s')]
    refine (ihr hr (Stream.chained_emit hchained _ x.span)).imp_right ?_
    rintro ⟨s'', joint', hok, hchained', hjoint', hends'⟩
    rw [hjoint'.eq_of_endsTerm (by rw [hbar]; rfl), hbar] at hends'
    exact ⟨s'', hok, hchained', hends.alternate rfl hends'⟩

/-! ## From streams to sentences -/

/-- Where a stream stands, by its last token. -/
def Place.At : Place → List Token → Prop
  | .start, tokens => ∀ last ∈ tokens.head?, last.kind = .opening
  | .term, tokens => endsTerm tokens = true
  | .bar, tokens => ∃ last, tokens.head? = some last ∧ last.kind = .alternation

theorem Place.At.eq_term {p : Place} {tokens : List Token} (h : p.At tokens)
    (hends : endsTerm tokens = true) : p = .term := by
  cases p with
  | term => rfl
  | start =>
    obtain ⟨last, hlast, hkind⟩ := (Option.any_eq_true _ _).mp hends
    rw [h last hlast] at hkind
    exact absurd hkind (by decide)
  | bar =>
    obtain ⟨last, hlast, hkind⟩ := h
    simp [endsTerm, hlast, hkind, TokenKind.endsTerm] at hends

/-- What adding items to a stream leaves: a stream that is still chained, and what was wrong. -/
structure Continues (tokens tokens' : List Token) : Prop where
  chained : Chained tokens → Chained tokens'
  isSome : (openAfter tokens').isSome = true → (openAfter tokens).isSome = true
  sound : Sound tokens' → Sound tokens

theorem Kept.continues {tokens tokens' : List Token} (h : Kept tokens tokens') :
    Continues tokens tokens' :=
  ⟨h.chained, fun hsome => h.openAfter_eq ▸ hsome, h.sound⟩

theorem Continues.trans {l m r : List Token} (h : Continues l m) (h' : Continues m r) :
    Continues l r :=
  ⟨fun hc => h'.chained (h.chained hc), fun hs => h.isSome (h'.isSome hs),
    fun hs => h.sound (h'.sound hs)⟩

theorem Stream.continues_emit (s : Stream) (kind : TokenKind) (span : Span) :
    Continues s.tokens (s.emit kind span).tokens where
  chained := fun h => chained_emit h kind span
  isSome := fun h => by
    rw [s.openAfter_emit] at h
    cases hopen : openAfter s.tokens with
    | none => simp [hopen] at h
    | some depth => rfl
  sound := fun h => h.of_suffix (s.suffix_emit kind span)

/-- A term that is written behind a stream opens and closes as many parentheses. -/
theorem Ends.kept {tokens tokens' joint : List Token} {t : Tree}
    (hchained : Chained tokens → Chained tokens') (hjoint : Joint tokens joint)
    (h : Ends tokens' .term t joint) : Kept tokens tokens' := by
  obtain ⟨l, hl, rfl⟩ := h
  exact ⟨hchained, (hl.balanced.openAfter_reverse_append joint).trans hjoint.openAfter_eq,
    fun hsound => hsound.of_append_right.of_suffix hjoint.suffix⟩

/-- A set has a member, and a repetition does not remove its term. -/
structure Lexeme.Plain (x : Lexeme) : Prop where
  hasMember : x.HasMember
  not_zero : ∀ min, x.item ≠ .repetition min (some 0)

/-- The kinds of items that can be added to a stream. -/
inductive Lexeme.Role (x : Lexeme) : Prop
  | atom {t : Tree} (h : x.atom? = some t)
  | opening (h : x.item = .opening)
  | closing (h : x.item = .closing)
  | bar (h : x.item = .bar)
  | repetition {min : Nat} {max : Option Nat} (h : x.item = .repetition min max)

theorem Stream.role_of_add {s s' : Stream} {x : Lexeme} (h : s.add x = .ok s') : x.Role := by
  obtain ⟨item, span, index⟩ := x
  cases item with
  | opening => exact .opening rfl
  | closing => exact .closing rfl
  | bar => exact .bar rfl
  | repetition => exact .repetition rfl
  | byte b => exact .atom rfl
  | oneOf set => exact .atom rfl
  | quoted bytes => exact .atom rfl
  | action text => exact .atom rfl
  | name name =>
    cases name with
    | nil => simp [add] at h
    | cons b more =>
      cases more with
      | nil => exact .atom rfl
      | cons c more => simp [add] at h

theorem Stream.continues_add {s s' : Stream} {x : Lexeme} (hx : x.Plain) (hs : Chained s.tokens)
    (h : s.add x = .ok s') : Continues s.tokens s'.tokens := by
  cases role_of_add h with
  | atom hatom =>
    obtain ⟨s'', joint, hadd, hchained, hjoint, hends⟩ := s.exists_add_atom hatom hx.hasMember
    obtain rfl := Except.ok.inj (hadd.symm.trans h)
    exact (hends.kept hchained hjoint).continues
  | opening hitem =>
    obtain rfl := Except.ok.inj ((add_opening hitem s).symm.trans h)
    exact s.continues_emit _ _
  | closing hitem =>
    obtain rfl := Except.ok.inj ((add_closing hitem s).symm.trans h)
    exact s.continues_emit _ _
  | bar hitem =>
    obtain rfl := Except.ok.inj ((add_bar hitem s).symm.trans h)
    exact s.continues_emit _ _
  | @repetition min max hitem =>
    rw [add_repetition hitem] at h
    have hmax : max ≠ some 0 := by
      rintro rfl
      exact hx.not_zero min hitem
    exact (kept_of_repeatTerm hs hmax h).2.2.continues

theorem Stream.continues_addAll {s s' : Stream} {l : List Lexeme} (hl : ∀ x ∈ l, x.Plain)
    (hs : Chained s.tokens) (h : s.addAll l = .ok s') : Continues s.tokens s'.tokens := by
  induction l generalizing s with
  | nil =>
    obtain rfl := Except.ok.inj h
    exact ⟨id, id, id⟩
  | cons x l ih =>
    obtain ⟨s₁, hadd, hrest⟩ := exists_of_addAll_cons h
    have hstep := continues_add (hl x List.mem_cons_self) hs hadd
    exact hstep.trans (ih (fun y hy => hl y (List.mem_cons_of_mem _ hy)) (hstep.chained hs) hrest)

/-- **An item leads from one beginning of a sentence to a longer one**, unless it leaves something
wrong with the stream. -/
theorem Begins.add {s s' : Stream} {x : Lexeme} {depth depth' : Nat} {p : Place}
    {l : List Lexeme} (hbegins : Begins depth p l) (hplace : p.At s.tokens)
    (hopen : openAfter s.tokens = some depth) (hx : x.Plain) (hs : Chained s.tokens)
    (h : s.add x = .ok s') (hsound : Sound s'.tokens) (hopen' : openAfter s'.tokens = some depth') :
    ∃ q : Place, Begins depth' q (l ++ [x]) ∧ q.At s'.tokens := by
  cases Stream.role_of_add h with
  | atom hatom =>
    obtain ⟨s'', joint, hadd, hchained, hjoint, hends⟩ := s.exists_add_atom hatom hx.hasMember
    obtain rfl := Except.ok.inj (hadd.symm.trans h)
    rw [(hends.kept hchained hjoint).openAfter_eq, hopen] at hopen'
    obtain rfl := Option.some.inj hopen'
    exact ⟨.term, hbegins.add_term (.atom hatom), hends.endsTerm_eq⟩
  | opening hitem =>
    obtain rfl := Except.ok.inj ((Stream.add_opening hitem s).symm.trans h)
    rw [s.openAfter_emit, hopen] at hopen'
    obtain rfl := Option.some.inj hopen'
    obtain ⟨between, htokens, -⟩ := s.emit_tokens .opening x.span
    refine ⟨.start, hbegins.add_opening hitem, fun last hlast => ?_⟩
    rw [htokens] at hlast
    rw [← Option.some.inj hlast]
  | closing hitem =>
    obtain rfl := Except.ok.inj ((Stream.add_closing hitem s).symm.trans h)
    rw [s.openAfter_emit, hopen, Option.bind_some, stepLevel] at hopen'
    split at hopen'
    · simp at hopen'
    · obtain rfl := Option.some.inj hopen'
      obtain ⟨depth, rfl⟩ := Nat.exists_eq_add_one_of_ne_zero ‹depth ≠ 0›
      refine ⟨.term, hbegins.add_closing ?_ hitem, s.endsTerm_emit _ x.span⟩
      rintro rfl
      obtain ⟨last, hlast, hkind⟩ := hplace
      rcases s.emit_closing x.span with ⟨-, last', -, hlast', hkind', -⟩ | ⟨-, htokens⟩
      · rw [hlast] at hlast'
        obtain rfl := Option.some.inj hlast'
        simp [hkind] at hkind'
      · rw [htokens] at hsound
        have hends := hsound.1 rfl
        simp [endsTerm, hlast, hkind, TokenKind.endsTerm] at hends
  | bar hitem =>
    obtain rfl := Except.ok.inj ((Stream.add_bar hitem s).symm.trans h)
    rw [s.openAfter_emit, hopen] at hopen'
    obtain rfl := Option.some.inj hopen'
    have htokens : (s.emit .alternation x.span).tokens = ⟨.alternation, x.span⟩ :: s.tokens :=
      Stream.emit_operator rfl (by decide)
    rw [htokens] at hsound ⊢
    obtain rfl := hplace.eq_term (hsound.1 rfl)
    exact ⟨.bar, hbegins.add_bar hitem, _, rfl, rfl⟩
  | @repetition min max hitem =>
    rw [Stream.add_repetition hitem] at h
    have hmax : max ≠ some 0 := by
      rintro rfl
      exact hx.not_zero min hitem
    obtain ⟨hends, hends', hkept⟩ := Stream.kept_of_repeatTerm hs hmax h
    rw [hkept.openAfter_eq, hopen] at hopen'
    obtain rfl := Option.some.inj hopen'
    obtain rfl := hplace.eq_term hends
    exact ⟨.term, hbegins.add_repetition hitem, hends'⟩

/-- **Items that are added with nothing wrong in the end are the beginning of a sentence.** -/
theorem Begins.addAll {s s' : Stream} {r : List Lexeme} {depth depth' : Nat} {p : Place}
    {l : List Lexeme} (hbegins : Begins depth p l) (hplace : p.At s.tokens)
    (hopen : openAfter s.tokens = some depth) (hr : ∀ x ∈ r, x.Plain) (hs : Chained s.tokens)
    (h : s.addAll r = .ok s') (hsound : Sound s'.tokens)
    (hopen' : openAfter s'.tokens = some depth') :
    ∃ q : Place, Begins depth' q (l ++ r) ∧ q.At s'.tokens := by
  induction r generalizing s l depth p with
  | nil =>
    obtain rfl := Except.ok.inj h
    rw [hopen] at hopen'
    obtain rfl := Option.some.inj hopen'
    exact ⟨p, by rwa [List.append_nil], hplace⟩
  | cons x r ih =>
    obtain ⟨s₁, hadd, hrun⟩ := Stream.exists_of_addAll_cons h
    have hplain := hr x List.mem_cons_self
    have hrest : ∀ y ∈ r, y.Plain := fun y hy => hr y (List.mem_cons_of_mem _ hy)
    have hchained := (Stream.continues_add hplain hs hadd).chained hs
    have hcontinues := Stream.continues_addAll hrest hchained hrun
    obtain ⟨depth₁, hopen₁⟩ :=
      Option.isSome_iff_exists.mp (hcontinues.isSome (by rw [hopen']; rfl))
    obtain ⟨q, hq, hqplace⟩ :=
      hbegins.add hplace hopen hplain hs hadd (hcontinues.sound hsound) hopen₁
    rw [List.append_cons]
    exact ih hq hqplace hopen₁ hrest hchained hrun

/-! ## Whole patterns -/

theorem eq_nil_of_total_counted {tokens : List Token} (hchained : Chained tokens)
    (hopen : openAfter tokens = some 0) (hcounted : total TokenKind.counted tokens = 0) :
    tokens = [] := by
  by_contra hne
  rcases exists_not_isParen hchained hopen hne with hlast | ⟨x, hx, hparen⟩
  · obtain ⟨last, before, rfl⟩ := List.exists_cons_of_ne_nil hne
    rw [openAfter_cons, hlast last rfl] at hopen
    cases hbefore : openAfter before with
    | none => simp [hbefore] at hopen
    | some depth => simp [hbefore, stepLevel] at hopen
  · rw [isParen_of_total_counted hcounted x hx] at hparen
    simp at hparen

/-- Items whose tokens have a tree are a sentence. -/
theorem exists_sentence_of_treeOfStream {l : List Lexeme} {s : Stream} {t : Tree}
    (hl : ∀ x ∈ l, x.Plain) (h : Stream.empty.addAll l = .ok s) (htree : treeOfStream s = .ok t) :
    ∃ u, Sentence l u := by
  have hnil : Chained Stream.empty.tokens := trivial
  have hchained : Chained s.tokens := (Stream.continues_addAll hl hnil h).chained hnil
  have hempty : Place.start.At Stream.empty.tokens := by simp [Place.At, Stream.empty]
  unfold treeOfStream at htree
  split at htree
  · simp at htree
  · next code hcode =>
    obtain ⟨hopen, hweight⟩ := of_treeOfPostfix hcode htree
    rw [total_reverse, total_reverse] at hweight
    rcases hweight with hone | hnone
    · obtain ⟨hends, hsound⟩ := sound_of_total_weight hchained.linked hone
      obtain ⟨q, hq, hplace⟩ := Begins.nil.addAll hempty rfl hl hnil h hsound hopen
      obtain rfl := hplace.eq_term hends
      obtain ⟨u, hu⟩ := hq.derives
      exact ⟨u, .alternatives hu⟩
    · have htokens := eq_nil_of_total_counted hchained hopen hnone
      obtain ⟨q, hq, hplace⟩ := Begins.nil.addAll hempty rfl hl hnil h
        (by rw [htokens]; trivial) hopen
      rw [htokens] at hplace
      cases q with
      | start =>
        cases hq with
        | outside hinside =>
          cases hinside
          exact ⟨.empty, .empty⟩
      | term => simp [Place.At, endsTerm] at hplace
      | bar => simp [Place.At] at hplace

/-- The tokens of a sentence have its tree. -/
theorem Sentence.treeOfStream_eq {l : List Lexeme} {t : Tree} (h : Sentence l t)
    (hsets : ∀ x ∈ l, x.HasMember) :
    (∃ e, Stream.empty.addAll l = .error e ∧ e.fault.refusesRepetition = true) ∨
      ∃ s, Stream.empty.addAll l = .ok s ∧ treeOfStream s = .ok t := by
  cases h with
  | empty => exact .inr ⟨Stream.empty, rfl, rfl⟩
  | alternatives h =>
    rcases h.adds hsets (s := Stream.empty) trivial with herror | ⟨s, joint, hok, -, hjoint, hends⟩
    · exact .inl herror
    · refine .inr ⟨s, hok, ?_⟩
      obtain rfl := hjoint.eq_of_endsTerm rfl
      obtain ⟨tokens, hforms, htokens⟩ := hends
      obtain ⟨code, hcode, htree⟩ := treeOfPostfix_of_forms hforms
      have hreverse : s.tokens.reverse = tokens := by rw [htokens]; simp [Stream.empty]
      rw [treeOfStream, hreverse, hcode]
      exact htree

/-- A pattern without macros is parsed item by item. -/
theorem parse_eq_addAll {macros : Macros} {pattern : Bytes}
    (hmacros : ∀ name span, (.name name, span) ∈ (lex pattern).items → macros.body? name = none)
    (registry : Registry) :
    (parse macros pattern registry).1 =
      ((Stream.empty.addAll (lexemes registry.size (lex pattern).items)).bind
        (refuseFault (lex pattern).error)).bind treeOfStream := by
  rw [← expand_eq_addAll (lex pattern).error hmacros, parse, tokenize]
  generalize expand macros [] none (lex pattern).items (lex pattern).error .empty registry = r
  obtain ⟨result, registry'⟩ := r
  cases result with
  | error e => rfl
  | ok s => rfl

theorem mem_of_mem_lexemes {x : Lexeme} {index : Nat} {items : List (Item × Span)}
    (h : x ∈ lexemes index items) : (x.item, x.span) ∈ items := by
  induction items generalizing index with
  | nil => simp [lexemes] at h
  | cons entry rest ih =>
    rcases List.mem_cons.mp h with rfl | h
    · exact List.mem_cons_self
    · exact List.mem_cons_of_mem _ (ih h)

/-- The items of a pattern with their numbers, where the first action block gets the next index of a
registry. -/
def patternLexemes (pattern : Bytes) (registry : Registry) : List Lexeme :=
  lexemes registry.size (lex pattern).items

theorem plain_of_mem_patternLexemes {pattern : Bytes} {registry : Registry}
    (hzero : ∀ min span, (.repetition min (some 0), span) ∉ (lex pattern).items) {x : Lexeme}
    (h : x ∈ patternLexemes pattern registry) : x.Plain where
  hasMember := fun set hset hnil => by
    obtain ⟨c, hc⟩ := hasMember_of_mem_lex (mem_of_mem_lexemes h) set hset
    exact List.ne_nil_of_mem (ByteSet.mem_toList.mpr hc) hnil
  not_zero := fun min hmin => hzero min x.span (hmin ▸ mem_of_mem_lexemes h)

end ActionRegex.Pattern
