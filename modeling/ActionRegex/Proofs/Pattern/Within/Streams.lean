import ActionRegex.Proofs.Pattern.Parsing
import ActionRegex.Proofs.Pattern.Within.Lexing

/-!
# Token streams inside a longer stream

While a pattern in parentheses is expanded, its tokens stand behind other tokens, their spans are
further on, and its actions have higher indexes. Otherwise they are the tokens of the pattern alone
(`Stream.Within`), because what stands before them ends with an open parenthesis: neither a term nor
a repetition goes on across it. Only a written-out repetition may be too large behind other tokens.

A closing parenthesis right at the start would go on across it. A stream that starts with one never
gets rid of it (`Stray`), so such a pattern is refused on its own.
-/

namespace ActionRegex.Pattern

/-! ## Tokens -/

/-- A token kind with the index of its action counted from `k` on. -/
def TokenKind.shift (k : Nat) : TokenKind → TokenKind
  | .symbol (.action index) => .symbol (.action (k + index))
  | kind => kind

/-- A token of a pattern inside a longer one. -/
def Token.move (k before : Nat) (x : Token) : Token := ⟨x.kind.shift k, x.span.move before⟩

namespace TokenKind

variable (k : Nat) (kind : TokenKind)

theorem startsTerm_shift : (kind.shift k).startsTerm = kind.startsTerm := by
  cases kind with
  | symbol value =>
    cases value with
    | byte => rfl
    | action => rfl
  | _ => rfl

theorem endsTerm_shift : (kind.shift k).endsTerm = kind.endsTerm := by
  cases kind with
  | symbol value =>
    cases value with
    | byte => rfl
    | action => rfl
  | _ => rfl

/-- Only symbols change. -/
theorem shift_eq_iff {other : TokenKind} (hother : ∀ s, other ≠ .symbol s) :
    kind.shift k = other ↔ kind = other := by
  cases kind with
  | symbol value =>
    cases value with
    | byte => exact Iff.rfl
    | action index => exact ⟨fun h => absurd h.symm (hother _), fun h => absurd h.symm (hother _)⟩
  | _ => exact Iff.rfl

end TokenKind

variable {k before : Nat} {base : List Token}

/-! ## Streams -/

/-- What stands before a pattern: nothing, or tokens that end with an open parenthesis. -/
def Opened (base : List Token) : Prop := ∀ last ∈ base.head?, last.kind = .opening

/-- A stream as it is behind the tokens of `base`. -/
def Stream.Within (k before : Nat) (base : List Token) (s s' : Stream) : Prop :=
  s'.tokens = s.tokens.map (Token.move k before) ++ base

namespace Stream.Within

variable {s s' : Stream}

theorem endsWith_eq (h : Within k before base s s') {p : TokenKind → Bool}
    (hp : ∀ kind, p (TokenKind.shift k kind) = p kind) (hne : s.tokens ≠ []) :
    s'.endsWith p = s.endsWith p := by
  unfold endsWith
  rw [h]
  cases htokens : s.tokens with
  | nil => exact absurd htokens hne
  | cons x rest => exact hp x.kind

/-- The token before the next one ends a term or not, as it does in the pattern alone. -/
theorem endsWith_endsTerm (h : Within k before base s s') (hbase : Opened base) :
    s'.endsWith TokenKind.endsTerm = s.endsWith TokenKind.endsTerm := by
  cases htokens : s.tokens with
  | nil =>
    unfold endsWith
    rw [h, htokens]
    cases base with
    | nil => rfl
    | cons last base =>
      have hlast : last.kind = .opening := hbase last rfl
      simp [hlast, TokenKind.endsTerm]
  | cons x rest => exact h.endsWith_eq (TokenKind.endsTerm_shift k) (by simp [htokens])

theorem push (h : Within k before base s s') (kind : TokenKind) (span : Span) :
    Within k before base (s.push ⟨kind, span⟩) (s'.push ⟨kind.shift k, span.move before⟩) := by
  show _ :: s'.tokens = _
  rw [h]
  rfl

/-- A token is added in the same way, unless it closes the parenthesis before the pattern. -/
theorem emit (h : Within k before base s s') (hbase : Opened base) {kind : TokenKind}
    (hkind : kind = .closing → s.tokens = [] → base = []) (span : Span) :
    Within k before base (s.emit kind span) (s'.emit (kind.shift k) (span.move before)) := by
  have hclosing : (kind.shift k == .closing && s'.endsWith (· == .opening)) =
      (kind == .closing && s.endsWith (· == .opening)) := by
    by_cases hclose : kind = .closing
    · subst hclose
      by_cases hne : s.tokens = []
      · have htokens := h
        rw [Within, hkind rfl hne, List.append_nil] at htokens
        simp [endsWith, htokens, hne]
      · have hopening : ∀ kind : TokenKind, (kind.shift k == .opening) = (kind == .opening) := by
          intro kind
          rw [Bool.eq_iff_iff, beq_iff_eq, beq_iff_eq]
          exact kind.shift_eq_iff k (by simp)
        rw [h.endsWith_eq (p := (· == .opening)) hopening hne]
        rfl
    · have hshift : kind.shift k ≠ .closing := fun heq =>
        hclose ((kind.shift_eq_iff k (by simp)).mp heq)
      rw [beq_eq_false_iff_ne.mpr hclose, beq_eq_false_iff_ne.mpr hshift, Bool.false_and,
        Bool.false_and]
  unfold Stream.emit
  rw [TokenKind.startsTerm_shift, h.endsWith_endsTerm hbase, hclosing]
  split
  · exact (h.push .concatenation span).push kind span
  · split
    · exact (h.push .empty span).push kind span
    · exact h.push kind span

end Stream.Within

/-- A stream with tokens of its own, as it is behind the tokens of `base`. -/
structure Stream.Inside (k before : Nat) (base : List Token) (s s' : Stream) : Prop where
  within : Within k before base s s'
  ne_nil : s.tokens ≠ []

namespace Stream

theorem tokens_emit_ne_nil (s : Stream) (kind : TokenKind) (span : Span) :
    (s.emit kind span).tokens ≠ [] := by
  obtain ⟨between, htokens, -⟩ := s.emit_tokens kind span
  rw [htokens]
  exact List.cons_ne_nil _ _

theorem Within.emit_inside {s s' : Stream} (h : Within k before base s s') (hbase : Opened base)
    {kind : TokenKind} (hkind : kind ≠ .closing) (span : Span) :
    Inside k before base (s.emit kind span) (s'.emit (kind.shift k) (span.move before)) :=
  ⟨h.emit hbase (fun hclosing => absurd hclosing hkind) span, s.tokens_emit_ne_nil kind span⟩

namespace Inside

variable {s s' : Stream}

theorem emit (h : Inside k before base s s') (hbase : Opened base) (kind : TokenKind)
    (span : Span) :
    Inside k before base (s.emit kind span) (s'.emit (kind.shift k) (span.move before)) :=
  ⟨h.within.emit hbase (fun _ hnil => absurd hnil h.ne_nil) span, s.tokens_emit_ne_nil kind span⟩

theorem foldl {α : Type} (f f' : Stream → α → Stream)
    (hf : ∀ {s s' : Stream} (a : α), Inside k before base s s' →
      Inside k before base (f s a) (f' s' a))
    (h : Inside k before base s s') (l : List α) :
    Inside k before base (l.foldl f s) (l.foldl f' s') := by
  induction l generalizing s s' with
  | nil => exact h
  | cons a l ih => exact ih (hf a h)

theorem emitAll (h : Inside k before base s s') (hbase : Opened base) (term : List Token) :
    Inside k before base (s.emitAll term) (s'.emitAll (term.map (Token.move k before))) := by
  unfold Stream.emitAll
  rw [List.foldl_map]
  exact h.foldl _ _ (fun x h => h.emit hbase x.kind x.span) term

theorem copying (hbase : Opened base) (term : List Token) (span : Span) :
    Copying (Inside k before base) term (term.map (Token.move k before)) span
      (span.move before) where
  emit kind hkind h := by
    have hshift : kind.shift k = kind := by
      cases kind with
      | symbol value => exact absurd rfl (hkind value)
      | _ => rfl
    have hemit := h.emit hbase kind span
    rwa [hshift] at hemit
  copy h := h.emitAll hbase term

end Inside

/-! ## Repetitions -/

theorem groupLength_within {depth count n : Nat} {tokens : List Token}
    (h : groupLength depth count tokens = some n) (k before : Nat) (base : List Token) :
    groupLength depth count (tokens.map (Token.move k before) ++ base) = some n := by
  induction tokens generalizing depth count with
  | nil => simp [groupLength] at h
  | cons x rest ih =>
    rw [List.map_cons, List.cons_append]
    unfold groupLength at h ⊢
    cases hx : x.kind with
    | closing =>
      simp only [hx, Token.move, TokenKind.shift] at h ⊢
      exact ih h
    | opening =>
      simp only [hx, Token.move, TokenKind.shift] at h ⊢
      split at h
      · next hdepth => rwa [if_pos hdepth]
      · next hdepth =>
        rw [if_neg hdepth]
        exact ih h
    | symbol value =>
      cases value with
      | byte =>
        simp only [hx, Token.move, TokenKind.shift] at h ⊢
        exact ih h
      | action =>
        simp only [hx, Token.move, TokenKind.shift] at h ⊢
        exact ih h
    | _ =>
      simp only [hx, Token.move, TokenKind.shift] at h ⊢
      exact ih h

/-- The last term of a stream is the last term behind other tokens. -/
theorem termLength_within {n : Nat} {tokens : List Token} (h : termLength tokens = some n)
    (k before : Nat) (base : List Token) :
    termLength (tokens.map (Token.move k before) ++ base) = some n := by
  induction tokens generalizing n with
  | nil => simp [termLength] at h
  | cons x rest ih =>
    rw [List.map_cons, List.cons_append]
    cases hx : x.kind with
    | symbol value =>
      have hmoved : ∃ s, (x.move k before).kind = .symbol s := by
        cases value with
        | byte b => exact ⟨.byte b, by rw [Token.move, hx]; rfl⟩
        | action index => exact ⟨.action (k + index), by rw [Token.move, hx]; rfl⟩
      rw [termLength_cons_operand (.inr ⟨value, hx⟩)] at h
      rw [termLength_cons_operand (.inr hmoved), h]
    | empty =>
      have hmoved : (x.move k before).kind = .empty := by rw [Token.move, hx]; rfl
      rw [termLength_cons_operand (.inl hx)] at h
      rw [termLength_cons_operand (.inl hmoved), h]
    | closing =>
      have hmoved : (x.move k before).kind = .closing := by rw [Token.move, hx]; rfl
      rw [termLength_cons_closing hx] at h
      rw [termLength_cons_closing hmoved]
      exact groupLength_within h k before base
    | closure =>
      have hmoved : (x.move k before).kind = .closure := by rw [Token.move, hx]; rfl
      rw [termLength_cons_closure hx] at h
      obtain ⟨m, hm, rfl⟩ := Option.map_eq_some_iff.mp h
      rw [termLength_cons_closure hmoved, ih hm]
      rfl
    | opening | alternation | concatenation => simp [termLength, hx] at h

/-- What becomes of a stream behind the tokens of `base`: it is what it was, or too large. -/
def Grows (k before : Nat) (base : List Token) (t : Stream) (result : Except Error Stream) : Prop :=
  (∃ e, result = .error e ∧ e.fault = .patternTooLarge) ∨
    ∃ t', result = .ok t' ∧ Within k before base t t'

/-- **A repetition is the same behind other tokens**, but may be too large there. -/
theorem Within.repeatTerm {s s' t : Stream} (h : Within k before base s s') (hbase : Opened base)
    {min : Nat} {max : Option Nat} {span : Span} (hok : s.repeatTerm min max span = .ok t) :
    Grows k before base t (s'.repeatTerm min max (span.move before)) := by
  unfold Stream.repeatTerm at hok ⊢
  split at hok
  · simp at hok
  · next hinvalid =>
    rw [if_neg hinvalid]
    split at hok
    · simp at hok
    · next hmany =>
      rw [if_neg hmany]
      split at hok
      · simp at hok
      · next length hlength =>
        have hlength' : termLength s'.tokens = some length := by
          rw [h]
          exact termLength_within hlength k before base
        have hle : length ≤ s.tokens.length := by
          obtain ⟨x, rest, front, htokens, rfl, -⟩ := exists_term_of_termLength hlength
          rw [htokens, List.length_append, List.length_reverse, List.length_cons]
          omega
        have hdrop : Within k before base (s.dropLast length) (s'.dropLast length) := by
          show s'.tokens.drop length = _
          rw [h, List.drop_append_of_le_length (by rwa [List.length_map]), ← List.map_drop]
          rfl
        have hlast : s'.lastTokens length = (s.lastTokens length).map (Token.move k before) := by
          unfold lastTokens
          rw [h, List.take_append_of_le_length (by rwa [List.length_map]), ← List.map_take,
            List.map_reverse]
        rw [hlength']
        simp only
        split at hok
        · obtain rfl := Except.ok.inj hok
          exact .inr ⟨s', rfl, h⟩
        · obtain rfl := Except.ok.inj hok
          exact .inr ⟨_, rfl, (h.emit_inside hbase (by decide) span).within⟩
        · obtain rfl := Except.ok.inj hok
          exact .inr ⟨_, rfl, (hdrop.emit_inside hbase (by decide) span).within⟩
        · unfold writeOut at hok ⊢
          split at hok
          · simp at hok
          · obtain rfl := Except.ok.inj hok
            by_cases hlarge : length * copies min max > maxTokens - s'.size
            · exact .inl ⟨_, if_pos hlarge, rfl⟩
            · refine .inr ⟨_, if_neg hlarge, ?_⟩
              have hopened := hdrop.emit_inside hbase
                (show TokenKind.opening ≠ .closing by decide) span
              rw [hlast]
              exact (((Inside.copying hbase _ span).emitRepeated min max hopened).emit hbase .closing
                span).within

/-! ## Items -/

theorem Within.emitBytes {s s' : Stream} (h : Within k before base s s') (hbase : Opened base)
    (span : Span) (bytes : Bytes) :
    Within k before base (s.emitBytes span bytes) (s'.emitBytes (span.move before) bytes) := by
  unfold Stream.emitBytes
  split
  · exact (h.emit_inside hbase (by decide) span).within
  · exact (h.emit_inside hbase (by simp) span).within
  · have hopened := h.emit_inside hbase (show TokenKind.opening ≠ .closing by decide) span
    have hfilled := hopened.foldl (fun s b => s.emitByte span b)
      (fun s b => s.emitByte (span.move before) b)
      (fun b h => h.emit hbase (.symbol (.byte b)) span) bytes
    exact (hfilled.emit hbase .closing span).within

theorem Within.emitSet {s s' : Stream} (h : Within k before base s s') (hbase : Opened base)
    (span : Span) (set : ByteSet) :
    Within k before base (s.emitSet span set) (s'.emitSet (span.move before) set) := by
  unfold Stream.emitSet
  split
  · exact h
  · exact (h.emit_inside hbase (by simp) span).within
  · next b rest _ _ =>
    have hopened := h.emit_inside hbase (show TokenKind.opening ≠ .closing by decide) span
    have hfilled := (hopened.emit hbase (.symbol (.byte b)) span).foldl
      (fun s b => (s.emit .alternation span).emitByte span b)
      (fun s b => (s.emit .alternation (span.move before)).emitByte (span.move before) b)
      (fun b h => (h.emit hbase .alternation span).emit hbase (.symbol (.byte b)) span) rest
    exact (hfilled.emit hbase .closing span).within

theorem Within.emitGroup {s s' inner inner' : Stream} (h : Within k before base s s')
    (hbase : Opened base) (hinner : Within k before [] inner inner') (span : Span) :
    Within k before base (s.emitGroup inner span) (s'.emitGroup inner' (span.move before)) := by
  have hopened := h.emit_inside hbase (show TokenKind.opening ≠ .closing by decide) span
  refine Within.emit ?_ hbase (fun _ hnil => ?_) span
  · have htokens : (s'.emit .opening (span.move before)).tokens = _ := hopened.within
    show inner'.tokens ++ _ = (inner.tokens ++ _).map _ ++ base
    rw [hinner, htokens, List.append_nil, List.map_append, List.append_assoc]
  · exact absurd (List.append_eq_nil_iff.mp hnil).2 hopened.ne_nil

end Stream

/-- **An item is added in the same way behind other tokens**, unless it closes the parenthesis
before the pattern. -/
theorem addItem_within {s s' t : Stream} (h : Stream.Within k before base s s')
    (hbase : Opened base) {item : Item} {span : Span}
    (hitem : item = .closing → s.tokens = [] → base = []) (hok : addItem s span item = .ok t) :
    Stream.Grows k before base t (addItem s' (span.move before) item) := by
  cases item with
  | repetition min max => exact h.repeatTerm hbase hok
  | opening =>
    obtain rfl := Except.ok.inj hok
    exact .inr ⟨_, rfl, (h.emit_inside hbase (by decide) span).within⟩
  | closing =>
    obtain rfl := Except.ok.inj hok
    exact .inr ⟨_, rfl, h.emit hbase (fun _ => hitem rfl) span⟩
  | bar =>
    obtain rfl := Except.ok.inj hok
    exact .inr ⟨_, rfl, (h.emit_inside hbase (by decide) span).within⟩
  | byte b =>
    obtain rfl := Except.ok.inj hok
    exact .inr ⟨_, rfl, (h.emit_inside hbase (by simp) span).within⟩
  | oneOf set =>
    obtain rfl := Except.ok.inj hok
    exact .inr ⟨_, rfl, h.emitSet hbase span set⟩
  | quoted bytes =>
    obtain rfl := Except.ok.inj hok
    exact .inr ⟨_, rfl, h.emitBytes hbase span bytes⟩
  | action | name =>
    obtain rfl := Except.ok.inj hok
    exact .inr ⟨_, rfl, h⟩

end ActionRegex.Pattern
