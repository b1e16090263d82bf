import ActionRegex.Proofs.Pattern.Streams

/-!
# Repetitions in token streams

A repetition takes the last term of a stream and writes copies of it. This module says which tokens
that term is, for any stream (`exists_term_of_termLength`) and for a stream that ends with a term of
the grammar (`termLength_of_forms`), and what the copies do.

For any stream, a repetition keeps the parentheses in pairs, and it keeps what is wrong with the
stream (`Kept`): a token without the term that it needs before it, be it in the repeated term or
before it, is there also afterwards. For this the term has to be copied at least once, so the upper
bound must not be zero.
-/

namespace ActionRegex.Pattern

/-! ## Open parentheses -/

/-- The number of open parentheses after tokens, latest first. -/
def openAfter (tokens : List Token) : Option Nat := levelAfter 0 tokens.reverse

theorem openAfter_append (tokens base : List Token) :
    openAfter (tokens ++ base) =
      (openAfter base).bind fun depth => levelAfter depth tokens.reverse := by
  rw [openAfter, List.reverse_append, levelAfter_append, openAfter]

theorem openAfter_cons (x : Token) (before : List Token) :
    openAfter (x :: before) = (openAfter before).bind fun depth => stepLevel depth x.kind := by
  rw [← List.singleton_append, openAfter_append]
  simp [levelAfter]

/-- Tokens that leave the number of open parentheses as it is. -/
def Balanced (tokens : List Token) : Prop := ∀ depth, levelAfter depth tokens = some depth

theorem stepLevel_of_not_isParen {kind : TokenKind} (h : kind.isParen = false) (depth : Nat) :
    stepLevel depth kind = some depth := by
  cases kind with
  | opening => simp [TokenKind.isParen] at h
  | closing => simp [TokenKind.isParen] at h
  | _ => rfl

theorem Balanced.append {l r : List Token} (hl : Balanced l) (hr : Balanced r) :
    Balanced (l ++ r) := fun depth => by
  rw [levelAfter_append, hl depth]
  exact hr depth

theorem balanced_singleton {x : Token} (h : x.kind.isParen = false) : Balanced [x] := fun depth => by
  rw [levelAfter, stepLevel_of_not_isParen h]
  rfl

theorem balanced_of_forall {tokens : List Token} (h : ∀ x ∈ tokens, x.kind.isParen = false) :
    Balanced tokens := by
  induction tokens with
  | nil => exact fun _ => rfl
  | cons x rest ih =>
    exact (balanced_singleton (h x List.mem_cons_self)).append
      (ih fun y hy => h y (List.mem_cons_of_mem _ hy))

theorem Balanced.openAfter_reverse_append {tokens : List Token} (h : Balanced tokens)
    (base : List Token) : openAfter (tokens.reverse ++ base) = openAfter base := by
  rw [openAfter_append, List.reverse_reverse, Option.bind_congr fun depth _ => h depth,
    Option.bind_fun_some]

theorem balanced_group {x y : Token} {l : List Token} (hx : x.kind = .opening) (hl : Balanced l)
    (hy : y.kind = .closing) : Balanced (x :: l ++ [y]) := fun depth => by
  rw [List.cons_append, levelAfter, hx, stepLevel, Option.bind_some, levelAfter_append,
    hl (depth + 1), Option.bind_some, levelAfter, hy]
  simp [stepLevel, levelAfter]

theorem Forms.balanced {level : Level} {l : List Token} {t : Tree} (h : Forms level l t) :
    Balanced l := by
  induction h with
  | symbol hx => exact balanced_singleton (by rw [hx]; rfl)
  | empty hx => exact balanced_singleton (by rw [hx]; rfl)
  | group hx _ hy ih => exact balanced_group hx ih hy
  | closure _ hx ih => exact ih.append (balanced_singleton (by rw [hx]; rfl))
  | term _ ih => exact ih
  | sequence _ ih => exact ih
  | concat _ hx _ ihl ihr | alternate _ hx _ ihl ihr =>
    exact ihl.append ((balanced_singleton (by rw [hx]; rfl)).append ihr)

theorem Stream.openAfter_emit (s : Stream) (kind : TokenKind) (span : Span) :
    openAfter (s.emit kind span).tokens =
      (openAfter s.tokens).bind fun depth => stepLevel depth kind := by
  obtain ⟨between, htokens, hbetween⟩ := s.emit_tokens kind span
  have hbalanced : Balanced between.reverse :=
    balanced_of_forall fun x hx => hbetween x (List.mem_reverse.mp hx)
  have hopen := hbalanced.openAfter_reverse_append s.tokens
  rw [List.reverse_reverse] at hopen
  rw [htokens, openAfter_cons, hopen]

theorem Stream.openAfter_emitAll (s : Stream) (tokens : List Token) :
    openAfter (s.emitAll tokens).tokens =
      (openAfter s.tokens).bind fun depth => levelAfter depth tokens := by
  induction tokens generalizing s with
  | nil => rw [show (fun depth => levelAfter depth []) = some from rfl, Option.bind_fun_some]; rfl
  | cons x rest ih =>
    show openAfter ((s.emit x.kind x.span).emitAll rest).tokens = _
    rw [ih, s.openAfter_emit, Option.bind_assoc]
    rfl

/-! ## The last term -/

namespace Stream

theorem termLength_cons_closure {x : Token} (hx : x.kind = .closure) (before : List Token) :
    termLength (x :: before) = (termLength before).map (· + 1) := by
  have hcount : ((x :: before).takeWhile fun token => token.kind == .closure).length =
      (before.takeWhile fun token => token.kind == .closure).length + 1 := by simp [hx]
  unfold termLength
  simp only [hcount, List.drop_succ_cons]
  split
  · rfl
  · split
    · simp
    · simp
    · rw [Option.map_map]
      exact congrArg (fun f => Option.map f _) (funext fun n => by simp; omega)
    · rfl

theorem termLength_cons_operand {x : Token} (hx : x.kind = .empty ∨ ∃ s, x.kind = .symbol s)
    (before : List Token) : termLength (x :: before) = some 1 := by
  rcases hx with hx | ⟨s, hx⟩ <;> simp [termLength, hx]

theorem termLength_cons_closing {x : Token} (hx : x.kind = .closing) (before : List Token) :
    termLength (x :: before) = groupLength 1 1 before := by
  simp [termLength, hx, groupLength]

/-- The tokens back to the parenthesis that opens the group. -/
theorem exists_of_groupLength {depth count n : Nat} {tokens : List Token}
    (h : groupLength (depth + 1) count tokens = some n) :
    ∃ x rest base, tokens = (x :: rest).reverse ++ base ∧ n = count + (rest.length + 1) ∧
      x.kind = .opening ∧ ∀ d, levelAfter d (x :: rest) = some (d + depth + 1) := by
  induction tokens generalizing depth count with
  | nil => simp [groupLength] at h
  | cons y before ih =>
    -- all cases but the last parenthesis add the token to what is found before it
    have hadd : ∀ {depth' : Nat}, groupLength (depth' + 1) (count + 1) before = some n →
        (∀ d, stepLevel (d + depth' + 1) y.kind = some (d + depth + 1)) →
        ∃ x rest base, y :: before = (x :: rest).reverse ++ base ∧ n = count + (rest.length + 1) ∧
          x.kind = .opening ∧ ∀ d, levelAfter d (x :: rest) = some (d + depth + 1) := by
      intro depth' hbefore hstep
      obtain ⟨x, rest, base, rfl, rfl, hx, hlevel⟩ := ih hbefore
      refine ⟨x, rest ++ [y], base, by simp, by simp; omega, hx, fun d => ?_⟩
      rw [← List.cons_append, levelAfter_append, hlevel, Option.bind_some, levelAfter, hstep]
      rfl
    unfold groupLength at h
    split at h
    · next hy => exact hadd h fun d => by rw [hy]; simp [stepLevel]; omega
    · next hy =>
      split at h
      · next hdepth =>
        refine ⟨y, [], before, rfl, by simpa using h.symm, hy, fun d => ?_⟩
        rw [levelAfter, hy]
        simp [stepLevel, levelAfter]
        omega
      · next hdepth =>
        obtain ⟨depth', rfl⟩ : ∃ depth', depth = depth' + 1 := ⟨depth - 1, by omega⟩
        exact hadd h fun d => by rw [hy]; simp [stepLevel]; omega
    · next hclosing hopening =>
      refine hadd h fun d => stepLevel_of_not_isParen ?_ _
      cases hy : y.kind with
      | opening => exact absurd hy hopening
      | closing => exact absurd hy hclosing
      | _ => rfl

/-- **The last term of any stream** has its parentheses in pairs and starts like a term. -/
theorem exists_term_of_termLength {tokens : List Token} {n : Nat} (h : termLength tokens = some n) :
    ∃ x rest base, tokens = (x :: rest).reverse ++ base ∧ n = rest.length + 1 ∧
      x.kind.startsTerm = true ∧ Balanced (x :: rest) ∧ endsTerm tokens = true := by
  induction tokens generalizing n with
  | nil => simp [termLength] at h
  | cons y before ih =>
    cases hy : y.kind with
    | symbol s =>
      rw [termLength_cons_operand (.inr ⟨s, hy⟩)] at h
      refine ⟨y, [], before, rfl, by simpa using h.symm, by rw [hy]; rfl,
        balanced_singleton (by rw [hy]; rfl), ?_⟩
      simp [endsTerm, hy, TokenKind.endsTerm]
    | empty =>
      rw [termLength_cons_operand (.inl hy)] at h
      refine ⟨y, [], before, rfl, by simpa using h.symm, by rw [hy]; rfl,
        balanced_singleton (by rw [hy]; rfl), ?_⟩
      simp [endsTerm, hy, TokenKind.endsTerm]
    | closing =>
      rw [termLength_cons_closing hy] at h
      obtain ⟨x, rest, base, rfl, rfl, hx, hlevel⟩ := exists_of_groupLength h
      refine ⟨x, rest ++ [y], base, by simp, by simp; omega, by rw [hx]; rfl, fun d => ?_, ?_⟩
      · rw [← List.cons_append, levelAfter_append, hlevel, Option.bind_some, levelAfter, hy]
        simp [stepLevel, levelAfter]
      · simp [endsTerm, hy, TokenKind.endsTerm]
    | closure =>
      rw [termLength_cons_closure hy] at h
      obtain ⟨m, hm, rfl⟩ := Option.map_eq_some_iff.mp h
      obtain ⟨x, rest, base, rfl, rfl, hx, hbalanced, -⟩ := ih hm
      refine ⟨x, rest ++ [y], base, by simp, by simp, hx,
        hbalanced.append (balanced_singleton (by rw [hy]; rfl)), ?_⟩
      simp [endsTerm, hy, TokenKind.endsTerm]
    | opening | alternation | concatenation => simp [termLength, hy] at h

section LastTokens

variable {s : Stream} {term base : List Token} (h : s.tokens = term.reverse ++ base)

include h

theorem tokens_dropLast : (s.dropLast term.length).tokens = base := by
  show s.tokens.drop _ = base
  rw [h, List.drop_left' (by simp)]

theorem lastTokens_eq : s.lastTokens term.length = term := by
  rw [lastTokens, h, List.take_left' (by simp), List.reverse_reverse]

end LastTokens

theorem groupLength_of_forms {level : Level} {l : List Token} {t : Tree} (h : Forms level l t)
    (depth count : Nat) (base : List Token) :
    groupLength (depth + 1) count (l.reverse ++ base) =
      groupLength (depth + 1) (count + l.length) base := by
  induction h generalizing depth count base with
  | symbol hx => simp [groupLength, hx]
  | empty hx => simp [groupLength, hx]
  | @group x y l t hx _ hy ih =>
    have hinner := ih (depth + 1) (count + 1) (x :: base)
    simp only [List.cons_append, List.reverse_cons, List.reverse_append, List.reverse_nil,
      List.nil_append, List.append_assoc, groupLength, hy, hinner, hx]
    simp
    congr 1
    omega
  | @closure x l t _ hx ih =>
    simp only [List.reverse_append, List.reverse_cons, List.reverse_nil, List.nil_append,
      List.cons_append, groupLength, hx, ih, List.length_append, List.length_singleton]
    congr 1
    omega
  | term _ ih => exact ih depth count base
  | sequence _ ih => exact ih depth count base
  | concat _ hx _ ihl ihr | alternate _ hx _ ihl ihr =>
    simp only [List.reverse_append, List.reverse_cons, List.append_assoc, List.nil_append,
      List.cons_append, ihr, groupLength, hx, ihl, List.length_append, List.length_cons]
    congr 1
    omega

/-- **The last term of a stream that ends with a term of the grammar.** -/
theorem termLength_of_forms {l : List Token} {t : Tree} (h : Forms .term l t) (base : List Token) :
    termLength (l.reverse ++ base) = some l.length := by
  generalize hlevel : Level.term = level at h
  induction h with
  | symbol hx => exact termLength_cons_operand (.inr ⟨_, hx⟩) base
  | empty hx => exact termLength_cons_operand (.inl hx) base
  | @group x y l t hx hl hy =>
    rw [List.reverse_append, List.reverse_singleton, List.singleton_append, List.cons_append,
      termLength_cons_closing hy, List.reverse_cons, List.append_assoc, groupLength_of_forms hl]
    simp [groupLength, hx]
    omega
  | @closure x l t _ hx ih =>
    rw [List.reverse_append, List.reverse_singleton, List.singleton_append, List.cons_append,
      termLength_cons_closure hx, ih hlevel]
    simp
  | _ => cases hlevel

end Stream

/-! ## What a repetition can do -/

namespace Stream

variable {s t : Stream} {n min : Nat} {max : Option Nat} {span : Span}

/-- Bounds of a repetition that are in order and not too large. -/
structure ValidBounds (min : Nat) (max : Option Nat) : Prop where
  min_le : min ≤ maxRepetition
  max_le : ∀ m, max = some m → min ≤ m ∧ m ≤ maxRepetition

theorem ValidBounds.not_any_lt {min : Nat} {max : Option Nat} (h : ValidBounds min max) :
    ¬ max.any (· < min) = true := by
  cases max with
  | none => simp
  | some m => simpa using (h.max_le m rfl).1

theorem ValidBounds.not_any_gt {min : Nat} {max : Option Nat} (h : ValidBounds min max) :
    ¬ (min > maxRepetition || max.any (· > maxRepetition)) = true := by
  have hmin := h.min_le
  cases max with
  | none => simpa using hmin
  | some m => simpa using ⟨hmin, (h.max_le m rfl).2⟩

theorem ValidBounds.of_not_any (hlt : ¬ max.any (· < min) = true)
    (hgt : ¬ (min > maxRepetition || max.any (· > maxRepetition)) = true) : ValidBounds min max := by
  rw [Bool.or_eq_true, not_or] at hgt
  refine ⟨by simpa using hgt.1, ?_⟩
  rintro m rfl
  exact ⟨by simpa using hlt, by simpa using hgt.2⟩

/-- The bounds of a repetition that is written out: the term gets no closure as it is, is not left
as it is, and is not removed. -/
structure CopiesTerm (min : Nat) (max : Option Nat) : Prop where
  not_star : ¬ (min = 0 ∧ max = none)
  not_once : ¬ (min = 1 ∧ max = some 1)
  not_zero : max ≠ some 0

theorem CopiesTerm.max_pos (h : CopiesTerm min max) (hvalid : ValidBounds min max) :
    ∀ m, max = some m → 0 < m ∧ min ≤ m := by
  rintro m rfl
  exact ⟨Nat.pos_of_ne_zero fun hzero => h.not_zero (congrArg some hzero), (hvalid.max_le m rfl).1⟩

/-- The stream with its last `n` tokens written out. -/
def writtenOut (s : Stream) (n min : Nat) (max : Option Nat) (span : Span) : Stream :=
  (emitRepeated (s.lastTokens n) min max span ((s.dropLast n).emit .opening span)).emit .closing span

/-- What a repetition with valid bounds makes of a stream whose last term has `n` tokens. -/
inductive RepeatsTo (s : Stream) (n min : Nat) (max : Option Nat) (span : Span) : Stream → Prop
  | once (hmin : min = 1) (hmax : max = some 1) : RepeatsTo s n min max span s
  | closure (hmin : min = 0) (hmax : max = none) :
    RepeatsTo s n min max span (s.emit .closure span)
  | removed (hmax : max = some 0) : RepeatsTo s n min max span ((s.dropLast n).emit .empty span)
  | written (hcopies : CopiesTerm min max) (hfits : n * copies min max ≤ maxTokens - s.size) :
    RepeatsTo s n min max span (s.writtenOut n min max span)

/-- **A repetition that is not refused** has valid bounds and stands behind a term. -/
theorem exists_repeatsTo (h : s.repeatTerm min max span = .ok t) :
    ValidBounds min max ∧ ∃ n, termLength s.tokens = some n ∧ RepeatsTo s n min max span t := by
  unfold repeatTerm at h
  split at h
  · simp at h
  · next hlt =>
    split at h
    · simp at h
    · next hgt =>
      refine ⟨.of_not_any hlt hgt, ?_⟩
      split at h
      · simp at h
      · next n hlength =>
        refine ⟨n, hlength, ?_⟩
        split at h
        · exact Except.ok.inj h ▸ .once rfl rfl
        · exact Except.ok.inj h ▸ .closure rfl rfl
        · exact Except.ok.inj h ▸ .removed rfl
        · next hzero honce hstar =>
          unfold writeOut at h
          split at h
          · simp at h
          · next hsmall =>
            have hcopies : CopiesTerm min max :=
              ⟨fun hboth => hstar hboth.1 hboth.2, fun hboth => honce hboth.1 hboth.2, hzero⟩
            exact Except.ok.inj h ▸ .written hcopies (Nat.not_lt.mp hsmall)

end Stream

/-! ## Tokens without the term before them -/

/-- Whether a token stands behind a term. -/
def TokenKind.needsTerm : TokenKind → Bool
  | .closing | .alternation | .concatenation | .closure => true
  | _ => false

/-- Each token, latest first, has the term before it that it needs. -/
def Sound : List Token → Prop
  | [] => True
  | x :: before => (x.kind.needsTerm = true → endsTerm before = true) ∧ Sound before

theorem Sound.of_append_right {l r : List Token} (h : Sound (l ++ r)) : Sound r := by
  induction l with
  | nil => exact h
  | cons x l ih => exact ih h.2

theorem Sound.of_suffix {l r : List Token} (h : Sound r) (hsuffix : l <:+ r) : Sound l := by
  obtain ⟨m, rfl⟩ := hsuffix
  exact h.of_append_right

/-- A part that starts like a term needs nothing of what stands before it. -/
theorem Sound.replace_base {x : Token} {rest base base' : List Token}
    (h : Sound ((x :: rest).reverse ++ base)) (hx : x.kind.startsTerm = true) (hbase : Sound base') :
    Sound ((x :: rest).reverse ++ base') := by
  induction rest using List.reverseRecOn with
  | nil =>
    refine ⟨fun hneeds => ?_, hbase⟩
    cases hkind : x.kind <;> simp_all [TokenKind.startsTerm, TokenKind.needsTerm]
  | append_singleton rest y ih =>
    rw [← List.cons_append, List.reverse_append, List.reverse_singleton] at h ⊢
    refine ⟨fun hneeds => ?_, ih h.2⟩
    have hends := h.1 hneeds
    simp only [endsTerm, List.append_eq, List.nil_append] at hends ⊢
    rwa [List.head?_append_of_ne_nil _ (by simp)] at hends ⊢

/-- One for a stream that ends with a term, else nothing. -/
def surplus (ends : Bool) : Int := if ends then 1 else 0

/-- A token that is no start of a term behind a term makes the surplus at least as large as it adds
operands, and larger if it lacks the term before it. -/
theorem weight_add_surplus {kind : TokenKind} {ends : Bool}
    (h : kind.startsTerm = true → ends = false) :
    kind.weight + surplus ends ≤ surplus kind.endsTerm ∧
      (kind.weight + surplus ends = surplus kind.endsTerm → kind.needsTerm = true → ends = true) := by
  cases ends with
  | false => cases kind <;> simp [TokenKind.weight, surplus, TokenKind.endsTerm, TokenKind.needsTerm]
  | true =>
    cases kind with
    | symbol | empty | opening => simp [TokenKind.startsTerm] at h
    | _ => simp [TokenKind.weight, surplus, TokenKind.endsTerm]

/-- **Where no term stands right behind a term, operands exceed binary operators by the surplus at
most**, and if they do by just that, no token lacks the term before it. -/
theorem total_weight_le {tokens : List Token} (h : Linked tokens) :
    total TokenKind.weight tokens ≤ surplus (endsTerm tokens) ∧
      (total TokenKind.weight tokens = surplus (endsTerm tokens) → Sound tokens) := by
  induction tokens with
  | nil => exact ⟨by simp [surplus, endsTerm], fun _ => trivial⟩
  | cons x before ih =>
    obtain ⟨hle, hsound⟩ := ih h.2
    obtain ⟨hstep, hneeds⟩ := weight_add_surplus h.1
    have hends : endsTerm (x :: before) = x.kind.endsTerm := rfl
    rw [total_cons, hends]
    exact ⟨by omega, fun heq => ⟨hneeds (by omega), hsound (by omega)⟩⟩

/-- One operand more than binary operators: there is nothing wrong, and a term at the end. -/
theorem sound_of_total_weight {tokens : List Token} (hlinked : Linked tokens)
    (hweight : total TokenKind.weight tokens = 1) : endsTerm tokens = true ∧ Sound tokens := by
  obtain ⟨hle, hsound⟩ := total_weight_le hlinked
  have hends : endsTerm tokens = true := by
    cases hends : endsTerm tokens with
    | true => rfl
    | false => simp [hends, surplus, hweight] at hle
  exact ⟨hends, hsound (by rw [hends, hweight]; rfl)⟩

/-- A chained stream that closes no parenthesis too many holds more than parentheses, unless it ends
with an open one. -/
theorem exists_not_isParen {tokens : List Token} (hchained : Chained tokens) {depth : Nat}
    (hopen : openAfter tokens = some depth) (hne : tokens ≠ []) :
    (∀ last ∈ tokens.head?, last.kind = .opening) ∨ ∃ x ∈ tokens, x.kind.isParen = false := by
  induction tokens generalizing depth with
  | nil => exact absurd rfl hne
  | cons x before ih =>
    rw [openAfter_cons] at hopen
    obtain ⟨depth', hbefore, hstep⟩ := Option.bind_eq_some_iff.mp hopen
    cases hx : x.kind with
    | opening => exact .inl fun last hlast => by rwa [← Option.some.inj hlast]
    | closing =>
      right
      -- something stands in front that is no open parenthesis
      cases before with
      | nil =>
        obtain rfl := Option.some.inj hbefore
        simp [hx, stepLevel] at hstep
      | cons y rest =>
        rcases ih hchained.2 hbefore (by simp) with hlast | ⟨z, hz, hparen⟩
        · exact absurd (hlast y rfl) (hchained.1.closing hx y rfl)
        · exact ⟨z, List.mem_cons_of_mem _ hz, hparen⟩
    | _ => exact .inr ⟨x, List.mem_cons_self, by rw [hx]; rfl⟩

/-! ## Copies in two streams -/

namespace Stream

/-- A relation between streams that is kept when the same tokens are added to both, or a copy of a
term to either of them. -/
structure Copying (R : Stream → Stream → Prop) (term term' : List Token) (span span' : Span) :
    Prop where
  emit : ∀ {s s' : Stream} (kind : TokenKind), (∀ value, kind ≠ .symbol value) → R s s' →
    R (s.emit kind span) (s'.emit kind span')
  copy : ∀ {s s' : Stream}, R s s' → R (s.emitAll term) (s'.emitAll term')

namespace Copying

variable {R : Stream → Stream → Prop} {term term' : List Token} {span span' : Span} {s s' : Stream}

theorem emitCopies (h : Copying R term term' span span') (n : Nat) (hs : R s s') :
    R (Stream.emitCopies term n s) (Stream.emitCopies term' n s') := by
  induction n generalizing s s' with
  | zero => exact hs
  | succ n ih => exact ih (h.copy hs)

theorem emitCount (h : Copying R term term' span span') (count : Nat) (hs : R s s') :
    R (Stream.emitCount term span s count) (Stream.emitCount term' span' s' count) := by
  unfold Stream.emitCount
  split
  · exact h.emitCopies count (h.emit .empty (by simp) hs)
  · exact h.emitCopies count hs

theorem foldl_emitCount (h : Copying R term term' span span') (counts : List Nat) (hs : R s s') :
    R (counts.foldl (fun s n => Stream.emitCount term span (s.emit .alternation span) n) s)
      (counts.foldl (fun s n => Stream.emitCount term' span' (s.emit .alternation span') n) s') := by
  induction counts generalizing s s' with
  | nil => exact hs
  | cons n counts ih => exact ih (h.emitCount n (h.emit .alternation (by simp) hs))

/-- **A repetition is written out in both streams.** -/
theorem emitRepeated (h : Copying R term term' span span') (min : Nat) (max : Option Nat)
    (hs : R s s') :
    R (Stream.emitRepeated term min max span s) (Stream.emitRepeated term' min max span' s') := by
  unfold Stream.emitRepeated
  split
  · exact h.emit .closure (by simp) (h.emitCopies (min + 1) hs)
  · split
    · exact h.emitCopies min hs
    · next max _ =>
      unfold emitCounts
      cases counts min max with
      | nil => exact hs
      | cons count counts => exact h.foldl_emitCount counts (h.emitCount count hs)

end Copying

end Stream

/-! ## Written copies -/

/-- A stream that came from another one by adding tokens that are no parentheses, and copies of a
term. -/
inductive Written (term : List Token) (s : Stream) : Stream → Prop
  | refl : Written term s s
  | emit {s' : Stream} {kind : TokenKind} (h : Written term s s') (span : Span)
    (hkind : kind.isParen = false) : Written term s (s'.emit kind span)
  | copy {s' : Stream} (h : Written term s s') : Written term s (s'.emitAll term)

namespace Stream

theorem counts_eq_cons {min max : Nat} (h : min ≤ max) :
    counts min max = min :: List.range' (min + 1) (max - min) := by
  rw [counts, show max + 1 - min = max - min + 1 by omega, List.range'_succ]

theorem suffix_emitAll (s : Stream) (tokens : List Token) :
    s.tokens <:+ (s.emitAll tokens).tokens := by
  induction tokens generalizing s with
  | nil => exact List.suffix_rfl
  | cons x rest ih => exact (s.suffix_emit x.kind x.span).trans (ih (s.emit x.kind x.span))

theorem chained_emitAll {s : Stream} (h : Chained s.tokens) (tokens : List Token) :
    Chained (s.emitAll tokens).tokens := by
  induction tokens generalizing s with
  | nil => exact h
  | cons x rest ih => exact ih (chained_emit h x.kind x.span)

theorem linked_emitAll {s : Stream} (h : Linked s.tokens) (tokens : List Token) :
    Linked (s.emitAll tokens).tokens := by
  induction tokens generalizing s with
  | nil => exact h
  | cons x rest ih => exact ih (linked_emit h x.kind x.span)

end Stream

namespace Written

variable {term : List Token} {s s' s'' : Stream}

theorem trans (h : Written term s s') (h' : Written term s' s'') : Written term s s'' := by
  induction h' with
  | refl => exact h
  | emit _ span hkind ih => exact ih.emit span hkind
  | copy _ ih => exact ih.copy

theorem suffix (h : Written term s s') : s.tokens <:+ s'.tokens := by
  induction h with
  | refl => exact List.suffix_rfl
  | emit _ span _ ih => exact ih.trans (Stream.suffix_emit _ _ span)
  | copy _ ih => exact ih.trans (Stream.suffix_emitAll _ _)

theorem chained (h : Written term s s') (hs : Chained s.tokens) : Chained s'.tokens := by
  induction h with
  | refl => exact hs
  | emit _ span _ ih => exact Stream.chained_emit ih _ span
  | copy _ ih => exact Stream.chained_emitAll ih _

theorem linked (h : Written term s s') (hs : Linked s.tokens) : Linked s'.tokens := by
  induction h with
  | refl => exact hs
  | emit _ span _ ih => exact Stream.linked_emit ih _ span
  | copy _ ih => exact Stream.linked_emitAll ih _

theorem openAfter_eq (h : Written term s s') (hterm : Balanced term) :
    openAfter s'.tokens = openAfter s.tokens := by
  induction h with
  | refl => rfl
  | emit _ span hkind ih =>
    rw [Stream.openAfter_emit, ih,
      Option.bind_congr fun depth _ => stepLevel_of_not_isParen hkind depth, Option.bind_fun_some]
  | copy _ ih =>
    rw [Stream.openAfter_emitAll, ih, Option.bind_congr fun depth _ => hterm depth,
      Option.bind_fun_some]

theorem emitCopies (term : List Token) (n : Nat) (s : Stream) :
    Written term s (Stream.emitCopies term n s) := by
  induction n generalizing s with
  | zero => exact .refl
  | succ n ih => exact (copy refl).trans (ih (s.emitAll term))

theorem emitCount (term : List Token) (span : Span) (s : Stream) (count : Nat) :
    Written term s (Stream.emitCount term span s count) := by
  unfold Stream.emitCount
  split
  · exact (emit refl span rfl).trans (emitCopies term count _)
  · exact emitCopies term count s

theorem foldl_emitCount (term : List Token) (span : Span) (s : Stream) (counts : List Nat) :
    Written term s (counts.foldl
      (fun s count => Stream.emitCount term span (s.emit .alternation span) count) s) := by
  induction counts generalizing s with
  | nil => exact .refl
  | cons count counts ih =>
    exact ((emit refl span rfl).trans (emitCount term span _ count)).trans (ih _)

theorem emitRepeated (term : List Token) (min : Nat) (max : Option Nat) (span : Span) (s : Stream) :
    Written term s (Stream.emitRepeated term min max span s) := by
  unfold Stream.emitRepeated
  split
  · exact (emitCopies term _ s).emit span rfl
  · split
    · exact emitCopies term min s
    · next max _ =>
      unfold Stream.emitCounts
      cases Stream.counts min max with
      | nil => exact .refl
      | cons count counts => exact (emitCount term span s count).trans (.foldl_emitCount term span _ _)

end Written

/-- A stream that came from another one by adding a copy of a term, among other things. -/
def WrittenOnce (term : List Token) (s s' : Stream) : Prop :=
  ∃ s₁, Written term s s₁ ∧ Written term (s₁.emitAll term) s'

namespace WrittenOnce

variable {term : List Token} {s s' s'' : Stream}

theorem of_written (h : Written term s s') (h' : WrittenOnce term s' s'') :
    WrittenOnce term s s'' := by
  obtain ⟨s₁, hs₁, hs''⟩ := h'
  exact ⟨s₁, h.trans hs₁, hs''⟩

theorem trans (h : WrittenOnce term s s') (h' : Written term s' s'') : WrittenOnce term s s'' := by
  obtain ⟨s₁, hs₁, hs'⟩ := h
  exact ⟨s₁, hs₁, hs'.trans h'⟩

theorem written (h : WrittenOnce term s s') : Written term s s' := by
  obtain ⟨s₁, hs₁, hs'⟩ := h
  exact (hs₁.copy).trans hs'

theorem emitCopies (term : List Token) {n : Nat} (hn : 0 < n) (s : Stream) :
    WrittenOnce term s (Stream.emitCopies term n s) := by
  obtain ⟨n, rfl⟩ := Nat.exists_eq_add_one_of_ne_zero hn.ne'
  exact ⟨s, .refl, .emitCopies term n _⟩

theorem emitCount (term : List Token) (span : Span) (s : Stream) {count : Nat} (h : 0 < count) :
    WrittenOnce term s (Stream.emitCount term span s count) := by
  unfold Stream.emitCount
  rw [if_neg h.ne']
  exact emitCopies term h s

theorem foldl_emitCount (term : List Token) (span : Span) (s : Stream) {counts : List Nat}
    {count : Nat} (hmem : count ∈ counts) (hcount : 0 < count) :
    WrittenOnce term s (counts.foldl
      (fun s count => Stream.emitCount term span (s.emit .alternation span) count) s) := by
  induction counts generalizing s with
  | nil => simp at hmem
  | cons first rest ih =>
    have hbar : Written term s (s.emit .alternation span) := .emit .refl span rfl
    rcases List.mem_cons.mp hmem with rfl | hmem
    · exact of_written hbar ((emitCount term span _ hcount).trans (.foldl_emitCount term span _ rest))
    · exact of_written (hbar.trans (.emitCount term span _ first)) (ih _ hmem)

/-- **Writing a repetition copies the term at least once**, unless its upper bound is zero. -/
theorem emitRepeated (term : List Token) {min : Nat} {max : Option Nat} (span : Span) (s : Stream)
    (hmax : ∀ m, max = some m → 0 < m ∧ min ≤ m) :
    WrittenOnce term s (Stream.emitRepeated term min max span s) := by
  unfold Stream.emitRepeated
  split
  · exact (emitCopies term (Nat.succ_pos min) s).trans (.emit .refl span rfl)
  · next max =>
    obtain ⟨hpos, hle⟩ := hmax max rfl
    split
    · next heq => exact emitCopies term (heq ▸ hpos) s
    · next hne =>
      rw [Stream.counts_eq_cons hle]
      exact of_written (.emitCount term span s min)
        (foldl_emitCount term span _ (List.mem_range'_1.mpr ⟨by omega, by omega⟩) hpos)

end WrittenOnce

/-! ## Repeating the last term -/

theorem Stream.endsTerm_emit (s : Stream) (kind : TokenKind) (span : Span) :
    endsTerm (s.emit kind span).tokens = kind.endsTerm := by
  obtain ⟨between, htokens, -⟩ := s.emit_tokens kind span
  rw [htokens]
  rfl

/-- What is kept of a stream when something is added that opens and closes as many parentheses. -/
structure Kept (tokens tokens' : List Token) : Prop where
  chained : Chained tokens → Chained tokens'
  openAfter_eq : openAfter tokens' = openAfter tokens
  sound : Sound tokens' → Sound tokens

/-- A term in place of which a group with a copy of it is written. -/
theorem WrittenOnce.kept {x : Token} {rest base : List Token} {s opened filled : Stream}
    {span span' : Span} (hs : s.tokens = base) (hx : x.kind.startsTerm = true)
    (hbalanced : Balanced (x :: rest)) (hchained : Chained ((x :: rest).reverse ++ base))
    (hopened : opened = s.emit .opening span) (hfilled : WrittenOnce (x :: rest) opened filled) :
    Kept ((x :: rest).reverse ++ base) (filled.emit .closing span').tokens where
  chained := fun h => by
    have hbase : Chained s.tokens := hs ▸ h.of_append_right
    exact Stream.chained_emit
      (hfilled.written.chained (hopened ▸ Stream.chained_emit hbase _ span)) _ span'
  openAfter_eq := by
    rw [Stream.openAfter_emit, hfilled.written.openAfter_eq hbalanced, hopened,
      Stream.openAfter_emit, hs, hbalanced.openAfter_reverse_append, Option.bind_assoc]
    simp [stepLevel]
  sound := fun h => by
    have hsound : Sound filled.tokens := h.of_suffix (filled.suffix_emit _ span')
    have hbase : Sound base := by
      have hsuffix := hfilled.written.suffix
      rw [hopened] at hsuffix
      exact hs ▸ hsound.of_suffix ((s.suffix_emit _ span).trans hsuffix)
    obtain ⟨s₁, -, hcopied⟩ := hfilled
    obtain ⟨joint, -, hcopy⟩ := Copyable.exists_emitAll
      ⟨⟨x, rest, rfl, hx⟩, hchained.of_append_left⟩ s₁
    have hcopySound := hsound.of_suffix hcopied.suffix
    rw [hcopy] at hcopySound
    exact hcopySound.replace_base hx hbase

namespace Stream

/-- **A repetition stands behind a term, becomes a term, and keeps what is wrong with a stream.** -/
theorem kept_of_repeatTerm {s s' : Stream} {min : Nat} {max : Option Nat} {span : Span}
    (hs : Chained s.tokens) (hmax : max ≠ some 0) (h : s.repeatTerm min max span = .ok s') :
    endsTerm s.tokens = true ∧ endsTerm s'.tokens = true ∧ Kept s.tokens s'.tokens := by
  obtain ⟨hvalid, length, hlength, hto⟩ := exists_repeatsTo h
  obtain ⟨x, rest, base, htokens, rfl, hx, hbalanced, hends⟩ := exists_term_of_termLength hlength
  refine ⟨hends, ?_⟩
  cases hto with
  | once => exact ⟨hends, id, rfl, id⟩
  | closure =>
    refine ⟨s.endsTerm_emit _ span, fun hc => chained_emit hc _ span, ?_,
      fun hsound => hsound.of_suffix (s.suffix_emit _ span)⟩
    rw [openAfter_emit]
    exact Option.bind_fun_some _
  | removed hzero => exact absurd hzero hmax
  | written hcopies =>
    refine ⟨endsTerm_emit _ _ span, ?_⟩
    have hlast : s.lastTokens (rest.length + 1) = x :: rest := lastTokens_eq htokens
    rw [writtenOut, hlast, htokens]
    exact WrittenOnce.kept (tokens_dropLast htokens) hx hbalanced (htokens ▸ hs) rfl
      (WrittenOnce.emitRepeated _ span _ (hcopies.max_pos hvalid))

/-! ## The tree of a repetition -/

/-- Tokens that become a term with a tree wherever they are added. -/
def Writes (term : List Token) (t : Tree) : Prop :=
  ∀ s : Stream, ∃ joint, Joint s.tokens joint ∧ Ends (s.emitAll term).tokens .term t joint

/-- A term of the grammar is copied as it is. -/
theorem writes_of_forms {term : List Token} {t : Tree} (h : Forms .term term t) :
    Writes term t := by
  intro s
  obtain ⟨joint, hjoint, htokens⟩ := h.copyable.exists_emitAll s
  exact ⟨joint, hjoint, term, h, htokens⟩

section Copies

variable {term : List Token} {t : Tree} (hterm : Writes term t)

include hterm

theorem ends_emitCopies {s : Stream} (hs : endsTerm s.tokens = false) (n : Nat) :
    Ends (emitCopies term (n + 1) s).tokens .sequence (t.power (n + 1)) s.tokens := by
  induction n with
  | zero =>
    obtain ⟨joint, hjoint, hends⟩ := hterm s
    rw [hjoint.eq_of_endsTerm hs] at hends
    exact hends.sequence_of_term
  | succ n ih =>
    obtain ⟨joint, hjoint, hends⟩ := hterm (emitCopies term (n + 1) s)
    rw [emitCopies_succ]
    exact ih.concat hjoint hends

theorem ends_emitCount {s : Stream} (hs : endsTerm s.tokens = false) (span : Span) (count : Nat) :
    Ends (emitCount term span s count).tokens .sequence (t.power count) s.tokens := by
  cases count with
  | zero =>
    have hempty : TokenKind.empty.startsTerm = true := rfl
    obtain ⟨joint, hjoint, hends⟩ := s.exists_ends_emit hempty fun joint =>
      Ends.empty (x := ⟨.empty, span⟩) rfl joint
    rw [hjoint.eq_of_endsTerm hs] at hends
    exact hends.sequence_of_term
  | succ n => exact ends_emitCopies hterm hs n

theorem ends_foldl_emitCount {s : Stream} {u : Tree} {base : List Token}
    (hs : Ends s.tokens .alternatives u base) (span : Span) (counts : List Nat) :
    Ends (counts.foldl
        (fun s count => emitCount term span (s.emit .alternation span) count) s).tokens
      .alternatives (counts.foldl (fun u n => .alternate u (t.power n)) u) base := by
  induction counts generalizing s u with
  | nil => exact hs
  | cons count counts ih =>
    have hbar : (s.emit .alternation span).tokens = ⟨.alternation, span⟩ :: s.tokens :=
      emit_operator rfl (by decide)
    have hcount := ends_emitCount hterm (s := s.emit .alternation span)
      (by rw [hbar]; rfl) span count
    rw [hbar] at hcount
    exact ih (hs.alternate rfl hcount)

/-- **The tokens of a written-out repetition.** -/
theorem ends_emitRepeated {s : Stream} (hs : endsTerm s.tokens = false) {min : Nat}
    {max : Option Nat} (span : Span) (hmin : max = none → 0 < min)
    (hmax : ∀ m, max = some m → 0 < m ∧ min ≤ m) :
    Ends (emitRepeated term min max span s).tokens .alternatives (t.repeated min max) s.tokens := by
  unfold emitRepeated
  split
  · obtain ⟨n, rfl⟩ := Nat.exists_eq_add_one_of_ne_zero (hmin rfl).ne'
    have hcopies := ends_emitCopies hterm hs n
    obtain ⟨joint, hjoint, hends⟩ := hterm (emitCopies term (n + 1) s)
    have hlast : Ends ((emitCopies term (n + 1 + 1) s).emit .closure span).tokens .term
        (.closure t) joint := by
      rw [emit_operator rfl (by decide), emitCopies_succ]
      exact hends.closure rfl
    exact (hcopies.concat hjoint hlast).alternatives_of_sequence
  · next max =>
    obtain ⟨hpos, hle⟩ := hmax max rfl
    split
    · next heq =>
      subst heq
      obtain ⟨n, rfl⟩ := Nat.exists_eq_add_one_of_ne_zero hpos.ne'
      have hcopies := ends_emitCopies hterm hs n
      simpa [Tree.repeated] using hcopies.alternatives_of_sequence
    · next hne =>
      rw [counts_eq_cons hle]
      exact ends_foldl_emitCount hterm
        (ends_emitCount hterm hs span min).alternatives_of_sequence span _

end Copies

/-- The last term of a stream is written out, or the stream would be too large. -/
theorem ends_writeOut {s : Stream} {n : Nat} {t : Tree} (hterm : Writes (s.lastTokens n) t)
    (hbase : endsTerm (s.dropLast n).tokens = false) {min : Nat} {max : Option Nat} (span : Span)
    (hmin : max = none → 0 < min) (hmax : ∀ m, max = some m → 0 < m ∧ min ≤ m) :
    (∃ e, s.writeOut n min max span = .error e ∧ e.fault = .patternTooLarge) ∨
      ∃ s', s.writeOut n min max span = .ok s' ∧ (Chained s.tokens → Chained s'.tokens) ∧
        Ends s'.tokens .term (t.repeated min max) (s.dropLast n).tokens := by
  unfold writeOut
  split
  · exact .inl ⟨_, rfl, rfl⟩
  · obtain ⟨joint, hjoint, hgroup⟩ := (s.dropLast n).exists_ends_group span span
      (emitRepeated (s.lastTokens n) min max span) fun opened hopened =>
        ends_emitRepeated hterm hopened span hmin hmax
    rw [hjoint.eq_of_endsTerm hbase] at hgroup
    refine .inr ⟨_, rfl, fun hs => ?_, hgroup⟩
    have hwritten := (WrittenOnce.emitRepeated (s.lastTokens n) span
      ((s.dropLast n).emit .opening span) hmax).written
    have hdropped : Chained (s.dropLast n).tokens := by
      rw [← List.take_append_drop n s.tokens] at hs
      exact hs.of_append_right
    exact chained_emit (hwritten.chained (chained_emit hdropped _ span)) _ span

/-- The empty text in place of the last term of a stream. -/
theorem ends_dropLast_emit_empty {s : Stream} {n : Nat}
    (hbase : endsTerm (s.dropLast n).tokens = false) (span : Span) :
    Ends ((s.dropLast n).emit .empty span).tokens .term .empty (s.dropLast n).tokens := by
  have hempty : TokenKind.empty.startsTerm = true := rfl
  obtain ⟨joint, hjoint, hends⟩ := (s.dropLast n).exists_ends_emit hempty
    fun joint => Ends.empty (x := ⟨.empty, span⟩) rfl joint
  rwa [hjoint.eq_of_endsTerm hbase] at hends

end Stream

end ActionRegex.Pattern
