import ActionRegex.Pattern.Expansion
import ActionRegex.Proofs.Pattern.Postfix
import Mathlib.Data.List.Induction

/-!
# Token streams

The first part says what `emit` adds besides the token: a concatenation before a term that follows a
term, and the empty text between parentheses. Streams that were written by `emit` are *chained*,
that is, nothing more is to be added between two of their tokens. This is why a part of a stream is
copied as it is.

The second part says what a stream ends with (`Ends`). It is compared with what it was before: it
ends with new tokens of a level that have a tree, behind a concatenation if there was a term before
them.
-/

namespace ActionRegex.Pattern

/-! ## Neighbours -/

/-- Whether tokens, latest first, end with a term. -/
def endsTerm (tokens : List Token) : Bool := tokens.head?.any fun x => x.kind.endsTerm

theorem endsTerm_of_opening {tokens : List Token} {last : Token} (hlast : tokens.head? = some last)
    (hkind : last.kind = .opening) : endsTerm tokens = false := by
  simp [endsTerm, hlast, hkind, TokenKind.endsTerm]

/-- Nothing is to be added between tokens, latest first, and a next one. -/
structure Follows (kind : TokenKind) (before : List Token) : Prop where
  term : kind.startsTerm = true → endsTerm before = false
  closing : kind = .closing → ∀ last ∈ before.head?, last.kind ≠ .opening

/-- Nothing is to be added between tokens. -/
def Chained : List Token → Prop
  | [] => True
  | x :: before => Follows x.kind before ∧ Chained before

/-- No term stands right behind a term. This holds also where tokens are added as they are. -/
def Linked : List Token → Prop
  | [] => True
  | x :: before => (x.kind.startsTerm = true → endsTerm before = false) ∧ Linked before

theorem Chained.linked {tokens : List Token} (h : Chained tokens) : Linked tokens := by
  induction tokens with
  | nil => trivial
  | cons x before ih => exact ⟨h.1.term, ih h.2⟩

theorem Linked.of_append_right {l r : List Token} (h : Linked (l ++ r)) : Linked r := by
  induction l with
  | nil => exact h
  | cons x l ih => exact ih h.2

theorem Linked.of_append_left {l r : List Token} (h : Linked (l ++ r)) : Linked l := by
  induction l with
  | nil => trivial
  | cons x l ih =>
    refine ⟨fun hstarts => ?_, ih h.2⟩
    cases l with
    | nil => rfl
    | cons y l => exact h.1 hstarts

/-- What stands behind tokens that do not end with a term can be anything. -/
theorem Linked.append {l r : List Token} (hl : Linked l) (hr : Linked r)
    (hends : endsTerm r = false) : Linked (l ++ r) := by
  induction l with
  | nil => exact hr
  | cons x l ih =>
    refine ⟨fun hstarts => ?_, ih hl.2⟩
    cases l with
    | nil => exact hends
    | cons y l => exact hl.1 hstarts

theorem Follows.of_head?_eq {kind : TokenKind} {l r : List Token} (h : Follows kind l)
    (hhead : l.head? = r.head?) : Follows kind r :=
  ⟨fun hkind => by rw [endsTerm, ← hhead]; exact h.term hkind,
    fun hkind => by rw [← hhead]; exact h.closing hkind⟩

theorem Follows.operator {kind : TokenKind} (before : List Token) (hstarts : kind.startsTerm = false)
    (hclosing : kind ≠ .closing) : Follows kind before :=
  ⟨fun h => by simp [hstarts] at h, fun h => absurd h hclosing⟩

theorem Follows.fresh {kind : TokenKind} {before : List Token} (hkind : kind ≠ .closing)
    (hends : endsTerm before = false) : Follows kind before :=
  ⟨fun _ => hends, fun h => absurd h hkind⟩

theorem Chained.of_append_left {l r : List Token} (h : Chained (l ++ r)) : Chained l := by
  induction l with
  | nil => trivial
  | cons x l ih =>
    refine ⟨?_, ih h.2⟩
    cases l with
    | nil => exact ⟨fun _ => rfl, by simp⟩
    | cons y l => exact h.1.of_head?_eq rfl

theorem Chained.of_append_right {l r : List Token} (h : Chained (l ++ r)) : Chained r := by
  induction l with
  | nil => exact h
  | cons x l ih => exact ih h.2

/-- Tokens together with the concatenation that a next term needs. -/
inductive Joint (tokens : List Token) : List Token → Prop
  | fresh (h : endsTerm tokens = false) : Joint tokens tokens
  | behind {x : Token} (h : endsTerm tokens = true) (hx : x.kind = .concatenation) :
    Joint tokens (x :: tokens)

theorem Joint.endsTerm_eq {tokens joint : List Token} (h : Joint tokens joint) :
    endsTerm joint = false := by
  cases h with
  | fresh h => exact h
  | behind h hx => simp [endsTerm, hx, TokenKind.endsTerm]

theorem Joint.eq_of_endsTerm {tokens joint : List Token} (h : Joint tokens joint)
    (htokens : endsTerm tokens = false) : joint = tokens := by
  cases h with
  | fresh => rfl
  | behind h => simp [htokens] at h

theorem Joint.exists_cons {tokens joint : List Token} (h : Joint tokens joint)
    (htokens : endsTerm tokens = true) : ∃ x, x.kind = .concatenation ∧ joint = x :: tokens := by
  cases h with
  | fresh h => simp [htokens] at h
  | behind h hx => exact ⟨_, hx, rfl⟩

namespace Stream

variable {s : Stream} {kind : TokenKind} {span : Span}

theorem endsWith_iff {p : TokenKind → Bool} :
    s.endsWith p = true ↔ ∃ last, s.tokens.head? = some last ∧ p last.kind = true :=
  Option.any_eq_true _ _

theorem emit_of_follows (h : Follows kind s.tokens) :
    (s.emit kind span).tokens = ⟨kind, span⟩ :: s.tokens := by
  have hterm : ¬ (kind.startsTerm && s.endsWith TokenKind.endsTerm) = true := by
    rw [Bool.and_eq_true]
    rintro ⟨hstarts, hends⟩
    rw [show s.endsWith TokenKind.endsTerm = false from h.term hstarts] at hends
    exact absurd hends (by decide)
  have hclosing : ¬ (kind == .closing && s.endsWith (· == .opening)) = true := by
    rw [Bool.and_eq_true, beq_iff_eq, endsWith_iff]
    rintro ⟨hkind, last, hlast, hopening⟩
    exact h.closing hkind last hlast (eq_of_beq hopening)
  rw [emit, if_neg hterm, if_neg hclosing]
  rfl

theorem emit_of_startsTerm (s : Stream) (span : Span) (hkind : kind.startsTerm = true) :
    ∃ joint, Joint s.tokens joint ∧ (s.emit kind span).tokens = ⟨kind, span⟩ :: joint := by
  cases hends : endsTerm s.tokens with
  | false =>
    refine ⟨_, .fresh hends, emit_of_follows ⟨fun _ => hends, ?_⟩⟩
    rintro rfl
    simp [TokenKind.startsTerm] at hkind
  | true =>
    refine ⟨⟨.concatenation, span⟩ :: s.tokens, .behind hends rfl, ?_⟩
    rw [emit, if_pos (by rw [hkind]; exact hends)]
    rfl

theorem emit_operator (hstarts : kind.startsTerm = false) (hclosing : kind ≠ .closing) :
    (s.emit kind span).tokens = ⟨kind, span⟩ :: s.tokens :=
  emit_of_follows (.operator _ hstarts hclosing)

/-- A closing parenthesis comes behind the empty text or as it is. -/
theorem emit_closing (s : Stream) (span : Span) :
    (∃ x last, x.kind = .empty ∧ s.tokens.head? = some last ∧ last.kind = .opening ∧
      (s.emit .closing span).tokens = ⟨.closing, span⟩ :: x :: s.tokens) ∨
    Follows .closing s.tokens ∧ (s.emit .closing span).tokens = ⟨.closing, span⟩ :: s.tokens := by
  by_cases h : s.endsWith (· == .opening) = true
  · left
    obtain ⟨last, hlast, hopening⟩ := endsWith_iff.mp h
    refine ⟨⟨.empty, span⟩, last, rfl, hlast, eq_of_beq hopening, ?_⟩
    rw [emit, if_neg (by simp [TokenKind.startsTerm]), if_pos (by simpa using h)]
    rfl
  · right
    have hfollows : Follows .closing s.tokens :=
      ⟨by simp [TokenKind.startsTerm], fun _ last hlast hkind =>
        h (endsWith_iff.mpr ⟨last, hlast, by simp [hkind]⟩)⟩
    exact ⟨hfollows, emit_of_follows hfollows⟩

/-- What is added before a token is no parenthesis. -/
theorem emit_tokens (s : Stream) (kind : TokenKind) (span : Span) :
    ∃ between, (s.emit kind span).tokens = ⟨kind, span⟩ :: (between ++ s.tokens) ∧
      ∀ x ∈ between, x.kind.isParen = false := by
  unfold emit
  split
  · exact ⟨[⟨.concatenation, span⟩], rfl, by simp [TokenKind.isParen]⟩
  · split
    · exact ⟨[⟨.empty, span⟩], rfl, by simp [TokenKind.isParen]⟩
    · exact ⟨[], rfl, by simp⟩

theorem suffix_emit (s : Stream) (kind : TokenKind) (span : Span) :
    s.tokens <:+ (s.emit kind span).tokens := by
  obtain ⟨between, htokens, -⟩ := s.emit_tokens kind span
  rw [htokens]
  exact ⟨⟨kind, span⟩ :: between, rfl⟩

/-- **Streams stay chained.** -/
theorem chained_emit (h : Chained s.tokens) (kind : TokenKind) (span : Span) :
    Chained (s.emit kind span).tokens := by
  by_cases hstarts : kind.startsTerm = true
  · obtain ⟨joint, hjoint, htokens⟩ := emit_of_startsTerm s span hstarts
    have hclosing : kind ≠ .closing := by
      rintro rfl
      simp [TokenKind.startsTerm] at hstarts
    rw [htokens]
    refine ⟨⟨fun _ => hjoint.endsTerm_eq, fun h => absurd h hclosing⟩, ?_⟩
    cases hjoint with
    | fresh => exact h
    | behind _ hx => exact ⟨.operator _ (by simp [hx, TokenKind.startsTerm]) (by simp [hx]), h⟩
  · rw [Bool.not_eq_true] at hstarts
    by_cases hclosing : kind = .closing
    · subst hclosing
      rcases emit_closing s span with ⟨x, last, hx, hlast, hopening, htokens⟩ | ⟨hfollows, htokens⟩
      · rw [htokens]
        exact ⟨⟨by simp [TokenKind.startsTerm], by simp [hx]⟩,
          ⟨fun _ => endsTerm_of_opening hlast hopening, by simp [hx]⟩, h⟩
      · rw [htokens]
        exact ⟨hfollows, h⟩
    · rw [emit_operator hstarts hclosing]
      exact ⟨.operator _ hstarts hclosing, h⟩

theorem linked_emit (h : Linked s.tokens) (kind : TokenKind) (span : Span) :
    Linked (s.emit kind span).tokens := by
  by_cases hstarts : kind.startsTerm = true
  · obtain ⟨joint, hjoint, htokens⟩ := emit_of_startsTerm s span hstarts
    rw [htokens]
    refine ⟨fun _ => hjoint.endsTerm_eq, ?_⟩
    cases hjoint with
    | fresh => exact h
    | behind _ hx => exact ⟨fun hx' => by simp [hx, TokenKind.startsTerm] at hx', h⟩
  · rw [Bool.not_eq_true] at hstarts
    by_cases hclosing : kind = .closing
    · subst hclosing
      rcases emit_closing s span with ⟨x, last, hx, hlast, hopening, htokens⟩ | ⟨hfollows, htokens⟩
      · rw [htokens]
        exact ⟨by simp [TokenKind.startsTerm], fun _ => endsTerm_of_opening hlast hopening, h⟩
      · rw [htokens]
        exact ⟨hfollows.term, h⟩
    · rw [emit_operator hstarts hclosing]
      exact ⟨fun hstarts' => by simp [hstarts] at hstarts', h⟩

/-! ## Copies -/

theorem emitAll_append (s : Stream) (l r : List Token) :
    s.emitAll (l ++ r) = (s.emitAll l).emitAll r :=
  List.foldl_append

theorem emitCopies_succ (term : List Token) (n : Nat) (s : Stream) :
    emitCopies term (n + 1) s = (emitCopies term n s).emitAll term := by
  induction n generalizing s with
  | zero => rfl
  | succ n ih => exact ih (s.emitAll term)

end Stream

/-- Tokens in the order of the text that are written as they are wherever a term can start. -/
structure Copyable (term : List Token) : Prop where
  starts : ∃ x rest, term = x :: rest ∧ x.kind.startsTerm = true
  chained : Chained term.reverse

/-- **A part of a stream is copied as it is.** -/
theorem Copyable.exists_emitAll {term : List Token} (h : Copyable term) (s : Stream) :
    ∃ joint, Joint s.tokens joint ∧ (s.emitAll term).tokens = term.reverse ++ joint := by
  obtain ⟨⟨x, rest, rfl, hx⟩, hchained⟩ := h
  induction rest using List.reverseRecOn with
  | nil => exact Stream.emit_of_startsTerm s x.span hx
  | append_singleton rest y ih =>
    rw [← List.cons_append, List.reverse_append, List.reverse_singleton] at hchained ⊢
    obtain ⟨joint, hjoint, htokens⟩ := ih hchained.2
    refine ⟨joint, hjoint, ?_⟩
    have hfollows : Follows y.kind (s.emitAll (x :: rest)).tokens := by
      refine hchained.1.of_head?_eq ?_
      rw [htokens, List.head?_append_of_ne_nil _ (by simp)]
      rfl
    rw [Stream.emitAll_append]
    show (Stream.emit _ y.kind y.span).tokens = _
    rw [Stream.emit_of_follows hfollows, htokens]
    rfl

/-! ## What a stream ends with -/

/-- Tokens, latest first, end with tokens of a level; `base` stands before them. -/
def Ends (tokens : List Token) (level : Level) (t : Tree) (base : List Token) : Prop :=
  ∃ l, Forms level l t ∧ tokens = l.reverse ++ base

theorem Forms.exists_starts {level : Level} {l : List Token} {t : Tree} (h : Forms level l t) :
    ∃ x rest, l = x :: rest ∧ x.kind.startsTerm = true := by
  induction h with
  | @symbol x s hx => exact ⟨x, [], rfl, by rw [hx]; rfl⟩
  | @empty x hx => exact ⟨x, [], rfl, by rw [hx]; rfl⟩
  | @group x y l t hx => exact ⟨x, l ++ [y], rfl, by rw [hx]; rfl⟩
  | term _ ih => exact ih
  | sequence _ ih => exact ih
  | closure _ _ ih =>
    obtain ⟨x, rest, rfl, hx⟩ := ih
    exact ⟨x, _, rfl, hx⟩
  | concat _ _ _ ih =>
    obtain ⟨x, rest, rfl, hx⟩ := ih
    exact ⟨x, _, rfl, hx⟩
  | alternate _ _ _ ih =>
    obtain ⟨x, rest, rfl, hx⟩ := ih
    exact ⟨x, _, rfl, hx⟩

theorem Forms.endsTerm_reverse_append {level : Level} {l : List Token} {t : Tree}
    (h : Forms level l t) (base : List Token) : endsTerm (l.reverse ++ base) = true := by
  induction h generalizing base with
  | symbol hx => simp [endsTerm, hx, TokenKind.endsTerm]
  | empty hx => simp [endsTerm, hx, TokenKind.endsTerm]
  | group _ _ hy => simp [endsTerm, hy, TokenKind.endsTerm]
  | closure _ hx => simp [endsTerm, hx, TokenKind.endsTerm]
  | term _ ih => exact ih base
  | sequence _ ih => exact ih base
  | concat _ _ _ _ ih | alternate _ _ _ _ ih =>
    rw [List.reverse_append, List.reverse_cons, List.append_assoc, List.append_assoc]
    exact ih _

/-- Tokens of a part of a sentence are chained, also behind others. -/
theorem Forms.chained_append {level : Level} {l : List Token} {t : Tree} (h : Forms level l t)
    {base : List Token} (hbase : Chained base) (hends : endsTerm base = false) :
    Chained (l.reverse ++ base) := by
  induction h generalizing base with
  | symbol hx => exact ⟨.fresh (by simp [hx]) hends, hbase⟩
  | empty hx => exact ⟨.fresh (by simp [hx]) hends, hbase⟩
  | @group x y l t hx hl hy ih =>
    have hopened : endsTerm (x :: base) = false := endsTerm_of_opening rfl hx
    have hstart : Chained (x :: base) := ⟨.fresh (by simp [hx]) hends, hbase⟩
    have hinner := ih hstart hopened
    simp only [List.cons_append, List.reverse_cons, List.reverse_append, List.reverse_nil,
      List.nil_append, List.append_assoc]
    refine ⟨⟨by simp [hy, TokenKind.startsTerm], fun _ last hlast hopening => ?_⟩, hinner⟩
    have hterm := hl.endsTerm_reverse_append (x :: base)
    rw [endsTerm_of_opening hlast hopening] at hterm
    exact absurd hterm (by decide)
  | closure _ hx ih =>
    rw [List.reverse_append, List.reverse_singleton, List.append_assoc]
    exact ⟨.operator _ (by simp [hx, TokenKind.startsTerm]) (by simp [hx]), ih hbase hends⟩
  | term _ ih => exact ih hbase hends
  | sequence _ ih => exact ih hbase hends
  | @concat x l r _ _ _ hx _ ihl ihr | @alternate x l r _ _ _ hx _ ihl ihr =>
    rw [List.reverse_append, List.reverse_cons, List.append_assoc, List.append_assoc]
    exact ihr ⟨.operator _ (by simp [hx, TokenKind.startsTerm]) (by simp [hx]), ihl hbase hends⟩
      (by simp [endsTerm, hx, TokenKind.endsTerm])

/-- Tokens of a part of a sentence are copied as they are. -/
theorem Forms.copyable {level : Level} {l : List Token} {t : Tree} (h : Forms level l t) :
    Copyable l where
  starts := h.exists_starts
  chained := by
    have hchained : Chained (l.reverse ++ []) := h.chained_append trivial rfl
    rwa [List.append_nil] at hchained

namespace Ends

variable {tokens base : List Token} {level : Level} {t u : Tree}

theorem endsTerm_eq (h : Ends tokens level t base) : endsTerm tokens = true := by
  obtain ⟨l, hl, rfl⟩ := h
  exact hl.endsTerm_reverse_append base

theorem sequence_of_term (h : Ends tokens .term t base) : Ends tokens .sequence t base := by
  obtain ⟨l, hl, rfl⟩ := h
  exact ⟨l, .term hl, rfl⟩

theorem alternatives_of_sequence (h : Ends tokens .sequence t base) :
    Ends tokens .alternatives t base := by
  obtain ⟨l, hl, rfl⟩ := h
  exact ⟨l, .sequence hl, rfl⟩

theorem symbol {x : Token} {value : Symbol} (hx : x.kind = .symbol value) (base : List Token) :
    Ends (x :: base) .term (.symbol value) base :=
  ⟨[x], .symbol hx, rfl⟩

theorem empty {x : Token} (hx : x.kind = .empty) (base : List Token) :
    Ends (x :: base) .term .empty base :=
  ⟨[x], .empty hx, rfl⟩

theorem closure {x : Token} (h : Ends tokens .term t base) (hx : x.kind = .closure) :
    Ends (x :: tokens) .term (.closure t) base := by
  obtain ⟨l, hl, rfl⟩ := h
  exact ⟨l ++ [x], .closure hl hx, by simp⟩

theorem group {x y : Token} (h : Ends tokens .alternatives t (x :: base)) (hx : x.kind = .opening)
    (hy : y.kind = .closing) : Ends (y :: tokens) .term t base := by
  obtain ⟨l, hl, rfl⟩ := h
  exact ⟨x :: l ++ [y], .group hx hl hy, by simp⟩

/-- A term behind a sequence, with the concatenation between them. -/
theorem concat {tokens' joint : List Token} (h : Ends tokens .sequence t base)
    (hjoint : Joint tokens joint) (h' : Ends tokens' .term u joint) :
    Ends tokens' .sequence (.concat t u) base := by
  obtain ⟨x, hx, rfl⟩ := hjoint.exists_cons h.endsTerm_eq
  obtain ⟨l, hl, rfl⟩ := h
  obtain ⟨r, hr, rfl⟩ := h'
  exact ⟨l ++ x :: r, .concat hl hx hr, by simp⟩

theorem alternate {tokens' : List Token} {x : Token} (h : Ends tokens .alternatives t base)
    (hx : x.kind = .alternation) (h' : Ends tokens' .sequence u (x :: tokens)) :
    Ends tokens' .alternatives (.alternate t u) base := by
  obtain ⟨l, hl, rfl⟩ := h
  obtain ⟨r, hr, rfl⟩ := h'
  exact ⟨l ++ x :: r, .alternate hl hx hr, by simp⟩

end Ends

/-! ## Atoms and groups -/

namespace Stream

theorem exists_ends_emit {kind : TokenKind} {span : Span} {t : Tree} (s : Stream)
    (hkind : kind.startsTerm = true)
    (ht : ∀ joint, Ends (⟨kind, span⟩ :: joint) .term t joint) :
    ∃ joint, Joint s.tokens joint ∧ Ends (s.emit kind span).tokens .term t joint := by
  obtain ⟨joint, hjoint, htokens⟩ := emit_of_startsTerm s span hkind
  exact ⟨joint, hjoint, htokens ▸ ht joint⟩

theorem exists_ends_emitByte (s : Stream) (span : Span) (b : UInt8) :
    ∃ joint, Joint s.tokens joint ∧ Ends (s.emitByte span b).tokens .term (.byte b) joint :=
  s.exists_ends_emit rfl fun _ => .symbol rfl _

theorem emit_closing_of_endsTerm {s : Stream} {span : Span} (h : endsTerm s.tokens = true) :
    (s.emit .closing span).tokens = ⟨.closing, span⟩ :: s.tokens := by
  refine emit_of_follows ⟨by simp [TokenKind.startsTerm], fun _ last hlast hopening => ?_⟩
  rw [endsTerm_of_opening hlast hopening] at h
  exact absurd h (by decide)

/-- Parentheses around nothing become a term. -/
theorem exists_ends_emptyGroup (s : Stream) (span span' : Span) :
    ∃ joint, Joint s.tokens joint ∧
      Ends ((s.emit .opening span).emit .closing span').tokens .term .empty joint := by
  have hopening : TokenKind.opening.startsTerm = true := rfl
  obtain ⟨joint, hjoint, htokens⟩ := emit_of_startsTerm s span hopening
  refine ⟨joint, hjoint, ?_⟩
  rcases emit_closing (s.emit .opening span) span' with ⟨x, -, hx, -, -, hclosed⟩ | ⟨hfollows, -⟩
  · rw [hclosed, htokens]
    exact Ends.group (Ends.empty hx _).sequence_of_term.alternatives_of_sequence rfl rfl
  · rw [htokens] at hfollows
    exact absurd rfl (hfollows.closing rfl _ rfl)

/-- Whatever writes alternatives behind an open parenthesis writes a term between parentheses. -/
theorem exists_ends_group (s : Stream) (span span' : Span) {t : Tree} (write : Stream → Stream)
    (hwrite : ∀ opened : Stream, endsTerm opened.tokens = false →
      Ends (write opened).tokens .alternatives t opened.tokens) :
    ∃ joint, Joint s.tokens joint ∧
      Ends ((write (s.emit .opening span)).emit .closing span').tokens .term t joint := by
  have hopening : TokenKind.opening.startsTerm = true := rfl
  obtain ⟨joint, hjoint, htokens⟩ := emit_of_startsTerm s span hopening
  have hends := hwrite (s.emit .opening span) (by rw [htokens]; rfl)
  refine ⟨joint, hjoint, ?_⟩
  rw [emit_closing_of_endsTerm hends.endsTerm_eq]
  rw [htokens] at hends
  exact hends.group rfl rfl

theorem ends_foldl_emitByte {span : Span} {t : Tree} {base : List Token} {s : Stream}
    (h : Ends s.tokens .sequence t base) (bytes : Bytes) :
    Ends (bytes.foldl (fun s b => s.emitByte span b) s).tokens .sequence
      (bytes.foldl (fun t b => .concat t (.byte b)) t) base := by
  induction bytes generalizing s t with
  | nil => exact h
  | cons b rest ih =>
    obtain ⟨joint, hjoint, hb⟩ := s.exists_ends_emitByte span b
    exact ih (h.concat hjoint hb)

theorem ends_foldl_alternation {span : Span} {t : Tree} {base : List Token} {s : Stream}
    (h : Ends s.tokens .alternatives t base) (bytes : Bytes) :
    Ends (bytes.foldl (fun s b => (s.emit .alternation span).emitByte span b) s).tokens .alternatives
      (bytes.foldl (fun t b => .alternate t (.byte b)) t) base := by
  induction bytes generalizing s t with
  | nil => exact h
  | cons b rest ih =>
    have hbar : (s.emit .alternation span).tokens = ⟨.alternation, span⟩ :: s.tokens :=
      emit_operator rfl (by decide)
    obtain ⟨joint, hjoint, hb⟩ := (s.emit .alternation span).exists_ends_emitByte span b
    rw [hjoint.eq_of_endsTerm (by rw [hbar]; rfl), hbar] at hb
    exact ih (h.alternate rfl hb.sequence_of_term)

/-- **The tokens of bytes in a row.** -/
theorem exists_ends_emitBytes (s : Stream) (span : Span) (bytes : Bytes) :
    ∃ joint, Joint s.tokens joint ∧
      Ends (s.emitBytes span bytes).tokens .term (.inOrder bytes) joint := by
  match bytes with
  | [] => exact s.exists_ends_emit rfl fun _ => .empty rfl _
  | [b] => exact s.exists_ends_emitByte span b
  | b :: c :: rest =>
    refine s.exists_ends_group span span (fun opened =>
      (b :: c :: rest).foldl (fun s b => s.emitByte span b) opened) fun opened hopened => ?_
    obtain ⟨joint, hjoint, hb⟩ := opened.exists_ends_emitByte span b
    rw [hjoint.eq_of_endsTerm hopened] at hb
    exact (ends_foldl_emitByte hb.sequence_of_term (c :: rest)).alternatives_of_sequence

/-- **The tokens of a set.** -/
theorem exists_ends_emitSet (s : Stream) (span : Span) {set : ByteSet} (hset : set.toList ≠ []) :
    ∃ joint, Joint s.tokens joint ∧
      Ends (s.emitSet span set).tokens .term (.anyOf set.toList) joint := by
  unfold emitSet
  match hlist : set.toList with
  | [] => exact absurd hlist hset
  | [b] => exact s.exists_ends_emitByte span b
  | b :: c :: rest =>
    refine s.exists_ends_group span span (fun opened =>
      (c :: rest).foldl (fun s b => (s.emit .alternation span).emitByte span b)
        (opened.emitByte span b)) fun opened hopened => ?_
    obtain ⟨joint, hjoint, hb⟩ := opened.exists_ends_emitByte span b
    rw [hjoint.eq_of_endsTerm hopened] at hb
    exact ends_foldl_alternation hb.sequence_of_term.alternatives_of_sequence (c :: rest)

end Stream

end ActionRegex.Pattern
