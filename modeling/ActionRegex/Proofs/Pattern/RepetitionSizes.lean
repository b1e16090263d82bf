import ActionRegex.Proofs.Pattern.Levels
import Mathlib.Algebra.Order.BigOperators.Group.List

/-!
# Sizes of written-out repetitions

A repetition is written out if the tokens before it and the tokens of its copies are within the
limit (`repeatTerm_eq_ok_iff`). Two things are left out of this: the copies take the place of the
term, which is among the tokens before the repetition, and they come with operators between them and
parentheses around them (`connectives`). So the stream may become longer than the limit, and this
happens if and only if the connectives make up for more than the term
(`size_of_tokensAfter_repetition`). The copies of a short term are an example
(`exceeds_starPattern`).

Sizes are counted with the concatenation that a next term needs (`joinedSize`). Each copy then adds
one token more than the term has, wherever it is written.
-/

namespace ActionRegex.Pattern

/-! ## The length of a stream -/

theorem Joint.length_eq {tokens joint : List Token} (h : Joint tokens joint) :
    joint.length = tokens.length + if endsTerm tokens then 1 else 0 := by
  cases h with
  | fresh h => simp [h]
  | behind h => simp [h]

namespace Stream

variable {s t : Stream} {kind : TokenKind} {term : List Token}

/-- The number of tokens before a next term, with the concatenation that joins it to the term before
it. -/
def joinedSize (s : Stream) : Nat := s.size + if endsTerm s.tokens then 1 else 0

theorem joinedSize_of_endsTerm (h : endsTerm s.tokens = true) : s.joinedSize = s.size + 1 := by
  rw [joinedSize, if_pos h]

theorem joinedSize_of_not_endsTerm (h : endsTerm s.tokens = false) : s.joinedSize = s.size := by
  rw [joinedSize, h]
  rfl

theorem length_of_joint {joint : List Token} (h : Joint s.tokens joint) :
    joint.length = s.joinedSize := by
  rw [h.length_eq, joinedSize, s.size_eq]

theorem size_emit_of_startsTerm (s : Stream) (span : Span) (hkind : kind.startsTerm = true) :
    (s.emit kind span).size = s.joinedSize + 1 := by
  obtain ⟨joint, hjoint, htokens⟩ := emit_of_startsTerm s span hkind
  rw [size_eq, htokens, List.length_cons, length_of_joint hjoint]

theorem size_emit_operator (s : Stream) (span : Span) (hstarts : kind.startsTerm = false)
    (hclosing : kind ≠ .closing) : (s.emit kind span).size = s.size + 1 := by
  rw [size_eq, emit_operator hstarts hclosing, List.length_cons, s.size_eq]

theorem size_emit_closing (span : Span) (h : endsTerm s.tokens = true) :
    (s.emit .closing span).size = s.size + 1 := by
  rw [size_eq, emit_closing_of_endsTerm h, List.length_cons, s.size_eq]

end Stream

/-! ## Copies of a term -/

/-- Tokens in the order of the text that are copied as they are and end like a term. -/
structure WholeTerm (term : List Token) : Prop extends Copyable term where
  ends : endsTerm term.reverse = true

namespace Stream

variable {s t : Stream} {term : List Token}

/-- A stream goes on to another one that ends with a term and is longer by a number of tokens, where
each term counts with a concatenation. -/
structure Lengthens (s t : Stream) (n : Nat) : Prop where
  ends : endsTerm t.tokens = true
  joinedSize_eq : t.joinedSize = s.joinedSize + n

theorem Lengthens.trans {u : Stream} {m n : Nat} (h : Lengthens s t m) (h' : Lengthens t u n) :
    Lengthens s u (m + n) :=
  ⟨h'.ends, by rw [h'.joinedSize_eq, h.joinedSize_eq, Nat.add_assoc]⟩

/-- A bar takes the place of the concatenation that a next term would need. -/
theorem joinedSize_emit_alternation (h : endsTerm s.tokens = true) (span : Span) :
    (s.emit .alternation span).joinedSize = s.joinedSize := by
  rw [joinedSize_of_not_endsTerm (s.endsTerm_emit .alternation span), joinedSize_of_endsTerm h]
  exact s.size_emit_operator span rfl (by decide)

theorem lengthens_emit_closure (h : endsTerm s.tokens = true) (span : Span) :
    Lengthens s (s.emit .closure span) 1 := by
  have hends : endsTerm (s.emit .closure span).tokens = true := s.endsTerm_emit .closure span
  refine ⟨hends, ?_⟩
  rw [joinedSize_of_endsTerm hends, joinedSize_of_endsTerm h,
    s.size_emit_operator span rfl (by decide)]

theorem lengthens_emit_empty (s : Stream) (span : Span) : Lengthens s (s.emit .empty span) 2 := by
  have hends : endsTerm (s.emit .empty span).tokens = true := s.endsTerm_emit .empty span
  refine ⟨hends, ?_⟩
  rw [joinedSize_of_endsTerm hends, s.size_emit_of_startsTerm span rfl]

section Copies

variable (hterm : WholeTerm term)

include hterm

theorem lengthens_emitAll (s : Stream) : Lengthens s (s.emitAll term) (term.length + 1) := by
  obtain ⟨joint, hjoint, htokens⟩ := hterm.toCopyable.exists_emitAll s
  have hends : endsTerm (s.emitAll term).tokens = true := by
    obtain ⟨x, rest, rfl, -⟩ := hterm.starts
    rw [htokens, endsTerm, List.head?_append_of_ne_nil _ (by simp)]
    exact hterm.ends
  refine ⟨hends, ?_⟩
  rw [joinedSize_of_endsTerm hends, size_eq, htokens, List.length_append, List.length_reverse,
    length_of_joint hjoint]
  omega

theorem lengthens_emitCopies (s : Stream) {n : Nat} (hn : 0 < n) :
    Lengthens s (emitCopies term n s) (n * (term.length + 1)) := by
  induction n, hn using Nat.le_induction with
  | base =>
    rw [Nat.one_mul]
    exact lengthens_emitAll hterm s
  | succ n _ ih =>
    rw [emitCopies_succ, Nat.succ_mul]
    exact ih.trans (lengthens_emitAll hterm _)

theorem lengthens_emitCount (s : Stream) (span : Span) (count : Nat) :
    Lengthens s (emitCount term span s count)
      (count * (term.length + 1) + if count = 0 then 2 else 0) := by
  unfold emitCount
  split
  · next hzero =>
    subst hzero
    rw [Nat.zero_mul, Nat.zero_add]
    exact lengthens_emit_empty s span
  · next hne => exact lengthens_emitCopies hterm s (Nat.pos_of_ne_zero hne)

theorem lengthens_foldl_emitCount (hs : endsTerm s.tokens = true) (span : Span) {counts : List Nat}
    (hcounts : 0 ∉ counts) :
    Lengthens s (counts.foldl
        (fun s count => emitCount term span (s.emit .alternation span) count) s)
      (counts.sum * (term.length + 1)) := by
  induction counts generalizing s with
  | nil => exact ⟨hs, by simp⟩
  | cons count counts ih =>
    obtain ⟨hne, hrest⟩ := not_or.mp (mt List.mem_cons.mpr hcounts)
    have hcount := lengthens_emitCount hterm (s.emit .alternation span) span count
    rw [if_neg (Ne.symm hne), Nat.add_zero] at hcount
    have hfirst : Lengthens s (emitCount term span (s.emit .alternation span) count)
        (count * (term.length + 1)) :=
      ⟨hcount.ends, by rw [hcount.joinedSize_eq, joinedSize_emit_alternation hs]⟩
    rw [List.sum_cons, Nat.add_mul]
    exact hfirst.trans (ih hcount.ends hrest)

end Copies

/-! ## Numbers of copies -/

theorem copies_some (min max : Nat) : copies min (some max) = (counts min max).sum :=
  List.sum_eq_foldl_nat.symm

theorem copies_self (n : Nat) : copies n (some n) = n := by
  rw [copies_some, counts_eq_cons (Nat.le_refl n)]
  simp

theorem copies_pos {min : Nat} {max : Option Nat} (hmax : ∀ m, max = some m → 0 < m ∧ min ≤ m) :
    0 < copies min max := by
  cases max with
  | none => exact Nat.succ_pos min
  | some m =>
    obtain ⟨hpos, hle⟩ := hmax m rfl
    have hmem : m ∈ counts min m := List.mem_range'_1.mpr ⟨hle, by omega⟩
    rw [copies_some]
    exact Nat.lt_of_lt_of_le hpos (List.le_sum_of_mem hmem)

/-- The counts up to the largest one that is allowed make about half a million copies. -/
theorem copies_le {min : Nat} {max : Option Nat} (h : ValidBounds min max) :
    copies min max ≤ 500500 := by
  cases max with
  | none =>
    have hmin := h.min_le
    simp only [copies, maxRepetition] at hmin ⊢
    omega
  | some m =>
    obtain ⟨hle, hmax⟩ := h.max_le m rfl
    have hsplit : List.range' 0 min ++ List.range' min (m + 1 - min) = List.range' 0 (m + 1) := by
      have happend := @List.range'_append_1 0 min (m + 1 - min)
      rwa [Nat.zero_add, Nat.add_sub_of_le (by omega)] at happend
    have hsum : copies min (some m) ≤ (List.range' 0 (m + 1)).sum := by
      rw [← hsplit, List.sum_append, copies_some, counts]
      exact Nat.le_add_left _ _
    have hmax : m ≤ 1000 := hmax
    have hall : (m + 1) * m ≤ 1001 * 1000 := Nat.mul_le_mul (by omega) hmax
    rw [List.sum_range', Nat.mul_zero, Nat.zero_add, Nat.mul_one, Nat.add_sub_cancel] at hsum
    omega

/-- The closure of an open-ended repetition, or the empty text for no copy, with its bar. -/
def extras (min : Nat) : Option Nat → Nat
  | none => 1
  | some _ => if min = 0 then 2 else 0

/-- The number of tokens that a written-out repetition has besides those of its copies: an operator
between each two of them, the two parentheses, and the extras. -/
def connectives (min : Nat) (max : Option Nat) : Nat := copies min max + 1 + extras min max

theorem connectives_le {min : Nat} {max : Option Nat} (h : ValidBounds min max) :
    connectives min max ≤ 500503 := by
  have hcopies := copies_le h
  have hextras : extras min max ≤ 2 := by
    unfold extras
    split
    · decide
    · split <;> decide
  rw [connectives]
  omega

/-! ## Writing a repetition out -/

theorem lengthens_emitRepeated (hterm : WholeTerm term) (s : Stream) {min : Nat} {max : Option Nat}
    (span : Span) (hmax : ∀ m, max = some m → 0 < m ∧ min ≤ m) :
    Lengthens s (emitRepeated term min max span s)
      (copies min max * (term.length + 1) + extras min max) := by
  unfold emitRepeated
  split
  · have hcopies := lengthens_emitCopies hterm s (Nat.succ_pos min)
    exact hcopies.trans (lengthens_emit_closure hcopies.ends span)
  · next max =>
    obtain ⟨hpos, hle⟩ := hmax max rfl
    split
    · next heq =>
      subst heq
      rw [copies_self, extras, if_neg hpos.ne']
      exact lengthens_emitCopies hterm s hpos
    · next hne =>
      have hfirst := lengthens_emitCount hterm s span min
      have hrest : 0 ∉ List.range' (min + 1) (max - min) := by simp
      have hall := hfirst.trans (lengthens_foldl_emitCount hterm hfirst.ends span hrest)
      rw [copies_some, counts_eq_cons hle, List.sum_cons, Nat.add_mul, Nat.add_right_comm]
      exact hall

/-- The last term of a chained stream, and what stands before it. -/
theorem wholeTerm_lastTokens {n : Nat} (hs : Chained s.tokens)
    (h : termLength s.tokens = some n) :
    WholeTerm (s.lastTokens n) ∧ (s.lastTokens n).length = n ∧ 0 < n ∧ n ≤ s.size ∧
      endsTerm (s.dropLast n).tokens = false := by
  obtain ⟨x, rest, base, htokens, rfl, hx, -, hends⟩ := exists_term_of_termLength h
  have hdrop : (s.dropLast (rest.length + 1)).tokens = base := tokens_dropLast htokens
  have hlast : s.lastTokens (rest.length + 1) = x :: rest := lastTokens_eq htokens
  rw [htokens] at hs hends
  rw [hlast, hdrop]
  refine ⟨⟨⟨⟨x, rest, rfl, hx⟩, hs.of_append_left⟩, ?_⟩, by simp, by simp, ?_, ?_⟩
  · rwa [endsTerm, List.head?_append_of_ne_nil _ (by simp)] at hends
  · rw [s.size_eq, htokens]
    simp
  · rw [List.reverse_cons, List.append_assoc] at hs
    exact hs.of_append_right.1.term hx

section WrittenOut

variable {n min : Nat} {max : Option Nat} {span : Span}
  (hs : Chained s.tokens) (hlength : termLength s.tokens = some n)
  (hmax : ∀ m, max = some m → 0 < m ∧ min ≤ m)

include hs hlength hmax

/-- At least one token is copied, so behind a stream beyond the limit there is no room for it. -/
theorem fits_iff : n * copies min max ≤ maxTokens - s.size ↔
    s.size + n * copies min max ≤ maxTokens := by
  obtain ⟨-, -, hn, -, -⟩ := wholeTerm_lastTokens hs hlength
  have hpos := Nat.mul_pos hn (copies_pos hmax)
  omega

/-- **The size of a written-out repetition.** The copies take the place of the term, and the
connectives come on top of them. -/
theorem size_writtenOut (span : Span) :
    (s.writtenOut n min max span).size + n =
      s.size + n * copies min max + connectives min max := by
  obtain ⟨hterm, hlast, -, hle, hbase⟩ := wholeTerm_lastTokens hs hlength
  have hopened : ((s.dropLast n).emit .opening span).joinedSize = s.size - n + 1 := by
    rw [joinedSize_of_not_endsTerm (endsTerm_emit _ .opening span),
      size_emit_of_startsTerm _ span rfl, joinedSize_of_not_endsTerm hbase]
    rfl
  have hrepeated := lengthens_emitRepeated hterm ((s.dropLast n).emit .opening span) span hmax
  have hsize := hrepeated.joinedSize_eq
  rw [joinedSize_of_endsTerm hrepeated.ends, hopened, hlast] at hsize
  rw [writtenOut, size_emit_closing span hrepeated.ends, hsize, connectives, Nat.mul_comm n,
    Nat.mul_succ]
  omega

end WrittenOut

/-- A repetition that copies its term is written out if and only if its bounds are valid and the
tokens before it and its copies are within the limit. -/
theorem repeatTerm_eq_ok_iff {n min : Nat} {max : Option Nat} {span : Span}
    (hs : Chained s.tokens) (hlength : termLength s.tokens = some n) (hcopies : CopiesTerm min max) :
    s.repeatTerm min max span = .ok t ↔ ValidBounds min max ∧
      s.size + n * copies min max ≤ maxTokens ∧ t = s.writtenOut n min max span := by
  constructor
  · intro hok
    obtain ⟨hvalid, n', hlength', hto⟩ := exists_repeatsTo hok
    obtain rfl := Option.some.inj (hlength.symm.trans hlength')
    cases hto with
    | once hmin hmax => exact absurd ⟨hmin, hmax⟩ hcopies.not_once
    | closure hmin hmax => exact absurd ⟨hmin, hmax⟩ hcopies.not_star
    | removed hmax => exact absurd hmax hcopies.not_zero
    | written _ hfits =>
      exact ⟨hvalid, (fits_iff hs hlength (hcopies.max_pos hvalid)).mp hfits, rfl⟩
  · rintro ⟨hvalid, hfits, rfl⟩
    have hroom := (fits_iff hs hlength (hcopies.max_pos hvalid)).mpr hfits
    rw [repeatTerm, if_neg hvalid.not_any_lt, if_neg hvalid.not_any_gt, hlength]
    simp only
    split
    · exact absurd ⟨rfl, rfl⟩ hcopies.not_once
    · exact absurd ⟨rfl, rfl⟩ hcopies.not_star
    · exact absurd rfl hcopies.not_zero
    · rw [writeOut, if_neg (Nat.not_lt.mpr hroom)]
      rfl

end Stream

/-! ## Repetitions in patterns -/

open ActionRegex.Pattern.Stream
  (CopiesTerm ValidBounds termLength copies connectives maxTokens)

variable {macros : Macros} {items : List (Item × Span)} {registry last : Registry} {s : Stream}
  {min : Nat} {max : Option Nat} {span : Span}

/-- The tokens after items at the start of a pattern. -/
def tokensAfter (macros : Macros) (items : List (Item × Span)) (registry : Registry) : Expanded :=
  expand macros [] none items none .empty registry

/-- Without macros there is nothing between two tokens of a pattern that is still to be added. -/
theorem chained_tokensAfter
    (hmacros : ∀ name span, (.name name, span) ∈ items → macros.body? name = none)
    (h : tokensAfter macros items registry = (.ok s, last)) : Chained s.tokens := by
  have hpaired : PairedMacros macros items := by
    rintro name other body ⟨⟨named, hnamed⟩, span, hmem⟩ - -
    rw [hmacros name span hmem] at hnamed
    simp at hnamed
  have hempty : Chained Stream.empty.tokens := trivial
  exact (counts_expand hpaired hempty h).chained

theorem tokensAfter_repetition (h : tokensAfter macros items registry = (.ok s, last)) :
    tokensAfter macros (items ++ [(.repetition min max, span)]) registry =
      (s.repeatTerm min max span, last) := by
  rw [tokensAfter] at h
  rw [tokensAfter, expand_append, h]
  have hadd : addItem s ((none : Option Span).getD span) (.repetition min max) =
      s.repeatTerm min max span := rfl
  simp only
  rw [expand_item (by simp) (by simp), hadd]
  cases s.repeatTerm min max span with
  | error e => rfl
  | ok s' => exact expand_nil s' last

theorem exists_of_tokensAfter_repetition {t : Stream}
    (h : tokensAfter macros (items ++ [(.repetition min max, span)]) registry = (.ok t, last)) :
    ∃ s, tokensAfter macros items registry = (.ok s, last) ∧ s.repeatTerm min max span = .ok t := by
  rcases hbefore : tokensAfter macros items registry with ⟨e | s, last'⟩
  · rw [tokensAfter] at hbefore
    rw [tokensAfter, expand_append, hbefore] at h
    simp at h
  · rw [tokensAfter_repetition hbefore] at h
    obtain ⟨hok, rfl⟩ := Prod.mk.inj h
    exact ⟨s, rfl, hok⟩

/-- **Sizes behind written-out repetitions.** In a pattern without macros a repetition that copies
its term is written out if and only if the tokens before it and its copies are within the limit. The
tokens behind it are within the limit if and only if they are with the connectives added and the
term taken away, and there are about half a million more than the limit at most. -/
theorem size_of_tokensAfter_repetition {pattern : Bytes} (registry : Registry)
    (hmacros : ∀ name span, (.name name, span) ∈ (lex pattern).items → macros.body? name = none)
    {before after : List (Item × Span)}
    (hitems : (lex pattern).items = before ++ (.repetition min max, span) :: after)
    (hcopies : CopiesTerm min max) :
    (∀ t last,
      tokensAfter macros (before ++ [(.repetition min max, span)]) registry = (.ok t, last) →
      ∃ s n, tokensAfter macros before registry = (.ok s, last) ∧ ValidBounds min max ∧
        termLength s.tokens = some n ∧ s.size + n * copies min max ≤ maxTokens ∧
        t.size + n = s.size + n * copies min max + connectives min max ∧
        (t.size ≤ maxTokens ↔
          s.size + n * copies min max + connectives min max ≤ maxTokens + n) ∧
        t.size ≤ maxTokens + 500502) ∧
    ∀ s n last, tokensAfter macros before registry = (.ok s, last) → ValidBounds min max →
      termLength s.tokens = some n → s.size + n * copies min max ≤ maxTokens →
      ∃ t, tokensAfter macros (before ++ [(.repetition min max, span)]) registry = (.ok t, last) := by
  have hbefore : ∀ name span, (.name name, span) ∈ before → macros.body? name = none := by
    intro name span hmem
    refine hmacros name span ?_
    rw [hitems]
    exact List.mem_append_left _ hmem
  refine ⟨fun t last hok => ?_, fun s n last hs hvalid hlength hfits => ?_⟩
  · obtain ⟨s, hs, hrepeat⟩ := exists_of_tokensAfter_repetition hok
    have hchained := chained_tokensAfter hbefore hs
    obtain ⟨-, n, hlength, -⟩ := Stream.exists_repeatsTo hrepeat
    obtain ⟨hvalid, hfits, rfl⟩ :=
      (Stream.repeatTerm_eq_ok_iff hchained hlength hcopies).mp hrepeat
    have hsize := Stream.size_writtenOut hchained hlength (hcopies.max_pos hvalid) span
    obtain ⟨-, -, hpos, -⟩ := Stream.wholeTerm_lastTokens hchained hlength
    have hconnectives := Stream.connectives_le hvalid
    exact ⟨s, n, hs, hvalid, hlength, hfits, hsize, by omega, by omega⟩
  · have hchained := chained_tokensAfter hbefore hs
    have hwritten : s.repeatTerm min max span = .ok (s.writtenOut n min max span) :=
      (Stream.repeatTerm_eq_ok_iff hchained hlength hcopies).mpr ⟨hvalid, hfits, rfl⟩
    exact ⟨_, by rw [tokensAfter_repetition hs, hwritten]⟩

/-- `(a|b)\x7b1,2\x7d` -/
def choicePattern : Bytes := [40, 97, 124, 98, 41, 123, 49, 44, 50, 125]

/-- The items of a group of two letters. -/
def choiceItems : List (Item × Span) :=
  [(.opening, ⟨0, 1⟩), (.name [97], ⟨1, 2⟩), (.bar, ⟨2, 3⟩), (.name [98], ⟨3, 4⟩),
    (.closing, ⟨4, 5⟩)]

/-- The five tokens of the group become nineteen. -/
theorem size_of_tokensAfter_choice :
    (∀ name span, (.name name, span) ∈ (lex choicePattern).items → Macros.body? name [] = none) ∧
    (lex choicePattern).items = choiceItems ++ [(.repetition 1 (some 2), ⟨5, 10⟩)] ∧
    CopiesTerm 1 (some 2) ∧
    ∃ t, tokensAfter [] (choiceItems ++ [(.repetition 1 (some 2), ⟨5, 10⟩)]) .empty =
      (.ok t, .empty) ∧ t.size = 19 ∧ t.size ≤ maxTokens := by
  have hmacros : ∀ name span, (.name name, span) ∈ (lex choicePattern).items →
      Macros.body? name [] = none := fun _ _ _ => rfl
  have hlexed : Lexed ⟨0, choicePattern⟩ (choiceItems ++ [(.repetition 1 (some 2), ⟨5, 10⟩)]) :=
    .item rfl <| .item rfl <| .item rfl <| .item rfl <| .item rfl <| .item rfl <| .ended _
  have hitems : (lex choicePattern).items =
      choiceItems ++ [(.repetition 1 (some 2), ⟨5, 10⟩)] := by rw [hlexed.lex_eq]
  have hcopies : CopiesTerm 1 (some 2) := ⟨by decide, by decide, by decide⟩
  have hvalid : ValidBounds 1 (some 2) := ⟨by decide, by simp [maxRepetition]⟩
  have hgroup : tokensAfter [] choiceItems .empty =
      (.ok (((((Stream.empty.emit .opening ⟨0, 1⟩).emitByte ⟨1, 2⟩ 97).emit .alternation
        ⟨2, 3⟩).emitByte ⟨3, 4⟩ 98).emit .closing ⟨4, 5⟩), .empty) := by cbv
  obtain ⟨hsizes, hwritten⟩ := size_of_tokensAfter_repetition .empty hmacros hitems hcopies
  obtain ⟨t, ht⟩ := hwritten _ 5 _ hgroup hvalid (by decide) (by decide)
  obtain ⟨s, n, hs, -, hlength, -, hsize, -, -⟩ := hsizes t _ ht
  obtain rfl := Except.ok.inj (Prod.mk.inj (hgroup.symm.trans hs)).1
  obtain rfl : 5 = n := Option.some.inj ((show _ = some 5 by decide).symm.trans hlength)
  have hnineteen : t.size = 19 := Nat.add_right_cancel hsize
  exact ⟨hmacros, hitems, hcopies, t, ht, hnineteen, by rw [hnineteen]; decide⟩

/-- `a*\x7b1,840\x7d` -/
def starPattern : Bytes := [97, 42, 123, 49, 44, 56, 52, 48, 125]

/-- The copies of `a*` are within the limit, but the bars and concatenations between them and the
parentheses around them make the stream longer. -/
theorem exceeds_starPattern :
    let before : List (Item × Span) := [(.name [97], ⟨0, 1⟩), (.repetition 0 none, ⟨1, 2⟩)]
    (∀ name span, (.name name, span) ∈ (lex starPattern).items → Macros.body? name [] = none) ∧
    (lex starPattern).items = before ++ [(.repetition 1 (some 840), ⟨2, 9⟩)] ∧
    CopiesTerm 1 (some 840) ∧
    ∃ t, tokensAfter [] (before ++ [(.repetition 1 (some 840), ⟨2, 9⟩)]) .empty =
      (.ok t, .empty) ∧ t.size = 1059661 ∧ maxTokens < t.size := by
  intro before
  have hcopies : CopiesTerm 1 (some 840) := ⟨by decide, by decide, by decide⟩
  have hvalid : ValidBounds 1 (some 840) := ⟨by decide, by simp [maxRepetition]⟩
  have hcount : copies 1 (some 840) = 353220 := by
    rw [Stream.copies_some, Stream.counts, List.sum_range']
  have hlexed : Lexed ⟨0, starPattern⟩ (before ++ [(.repetition 1 (some 840), ⟨2, 9⟩)]) :=
    .item rfl <| .item rfl <| .item rfl <| .ended _
  let s := (Stream.empty.emitByte ⟨0, 1⟩ 97).emit .closure ⟨1, 2⟩
  have hbefore : tokensAfter [] before .empty = (.ok s, .empty) := by cbv
  have hchained : Chained s.tokens := chained_tokensAfter (fun _ _ _ => rfl) hbefore
  have hlength : termLength s.tokens = some 2 := by decide
  have hsize : s.size = 2 := by decide
  have hfits : s.size + 2 * copies 1 (some 840) ≤ maxTokens := by rw [hcount, hsize]; decide
  have hwritten : s.repeatTerm 1 (some 840) ⟨2, 9⟩ = .ok (s.writtenOut 2 1 (some 840) ⟨2, 9⟩) :=
    (Stream.repeatTerm_eq_ok_iff hchained hlength hcopies).mpr ⟨hvalid, hfits, rfl⟩
  have hlarge := Stream.size_writtenOut hchained hlength (hcopies.max_pos hvalid) ⟨2, 9⟩
  rw [connectives, hcount, hsize] at hlarge
  have hexact : (s.writtenOut 2 1 (some 840) ⟨2, 9⟩).size = 1059661 := Nat.add_right_cancel hlarge
  refine ⟨fun _ _ _ => rfl, by rw [hlexed.lex_eq], hcopies, _, ?_, hexact, by rw [hexact]; decide⟩
  rw [tokensAfter_repetition hbefore, hwritten]

end ActionRegex.Pattern
