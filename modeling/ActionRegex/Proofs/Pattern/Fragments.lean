import ActionRegex.Proofs.Pattern.RepetitionTexts
import ActionRegex.Proofs.Pattern.Scanning
import ActionRegex.Proofs.Pattern.Within.Expansion

/-!
# The fragments of action blocks

A fragment is balanced (`BalancedFragment`) if its braces outside of literals pair up and its
literals end. A block that starts with a balanced fragment and a closing brace is read as exactly
that fragment (`blockLength_of_nested`), and a block that is read is such a one
(`closes_of_blockLength`), so the brace that closes a block is the first one that can. The scanning
of a text goes on right behind it, and where there is none it fails at the block, which leaves
nothing in the registry (`expandText_block`).
-/

namespace ActionRegex.Pattern

/-! ## Balanced fragments -/

/-- The inside of a literal: bytes that neither end it nor are a backslash, and pairs of a backslash
and any byte. -/
inductive LiteralText (delimiter : UInt8) : Bytes → Prop
  | nil : LiteralText delimiter []
  | byte {b : UInt8} {rest : Bytes} (hdelimiter : b ≠ delimiter) (hbackslash : b ≠ Ascii.backslash)
    (h : LiteralText delimiter rest) : LiteralText delimiter (b :: rest)
  | escaped {b : UInt8} {rest : Bytes} (h : LiteralText delimiter rest) :
    LiteralText delimiter (Ascii.backslash :: b :: rest)

/-- A byte that starts and ends literals. -/
def IsQuote (b : UInt8) : Prop := b = Ascii.doubleQuote ∨ b = Ascii.quote

/-- A text that closes the `depth` braces that are open before it, and all that it opens itself. -/
inductive Nested : Nat → Bytes → Prop
  | nil : Nested 0 []
  | opening {depth : Nat} {rest : Bytes} (h : Nested (depth + 1) rest) :
    Nested depth (Ascii.leftBrace :: rest)
  | closing {depth : Nat} {rest : Bytes} (h : Nested depth rest) :
    Nested (depth + 1) (Ascii.rightBrace :: rest)
  | literal {depth : Nat} {delimiter : UInt8} {inside rest : Bytes} (hquote : IsQuote delimiter)
    (hinside : LiteralText delimiter inside) (h : Nested depth rest) :
    Nested depth (delimiter :: (inside ++ delimiter :: rest))
  | byte {depth : Nat} {b : UInt8} {rest : Bytes} (hleft : b ≠ Ascii.leftBrace)
    (hright : b ≠ Ascii.rightBrace) (hquote : ¬ IsQuote b) (h : Nested depth rest) :
    Nested depth (b :: rest)

/-- Braces outside of literals never close more than was opened, and are all closed at the end; and
all literals end. -/
def BalancedFragment (text : Bytes) : Prop := Nested 0 text

/-! ## Blocks that end -/

theorem blockLength_literal {delimiter : UInt8} {inside : Bytes} (h : LiteralText delimiter inside)
    (hquote : IsQuote delimiter) (depth count : Nat) (rest : Bytes) :
    blockLength (.literal delimiter) depth count (inside ++ delimiter :: rest) =
      blockLength .code depth (count + inside.length + 1) rest := by
  have hne : delimiter ≠ Ascii.backslash := by
    rcases hquote with rfl | rfl <;> decide
  induction h generalizing count with
  | nil => rw [List.nil_append, blockLength, if_neg hne, if_pos rfl, List.length_nil, Nat.add_zero]
  | @byte b inside hdelimiter hbackslash _ ih =>
    rw [List.cons_append, blockLength, if_neg hbackslash, if_neg hdelimiter, ih, List.length_cons,
      Nat.add_right_comm count 1, Nat.add_assoc count]
  | @escaped b inside _ ih =>
    rw [List.cons_append, List.cons_append, blockLength, if_pos rfl, blockLength, ih,
      List.length_cons, List.length_cons]
    congr 1
    omega

/-- **A fragment that closes what is open is read to its end.** -/
theorem blockLength_of_nested {depth : Nat} {text : Bytes} (h : Nested depth text) (count : Nat)
    (rest : Bytes) :
    blockLength .code depth count (text ++ Ascii.rightBrace :: rest) =
      some (count + text.length) := by
  induction h generalizing count with
  | nil => rfl
  | opening _ ih =>
    rw [List.cons_append, blockLength, if_pos rfl, ih, List.length_cons, Nat.add_right_comm]
    rfl
  | closing _ ih =>
    have hne : Ascii.rightBrace ≠ Ascii.leftBrace := by decide
    rw [List.cons_append, blockLength, if_neg hne, if_pos rfl, if_neg (Nat.succ_ne_zero _),
      Nat.add_sub_cancel, ih, List.length_cons, Nat.add_right_comm]
    rfl
  | @literal depth delimiter inside text hquote hinside _ ih =>
    have hleft : delimiter ≠ Ascii.leftBrace := by rcases hquote with rfl | rfl <;> decide
    have hright : delimiter ≠ Ascii.rightBrace := by rcases hquote with rfl | rfl <;> decide
    have hquote' : delimiter = Ascii.doubleQuote ∨ delimiter = Ascii.quote := hquote
    rw [List.cons_append, List.append_assoc, List.cons_append, blockLength, if_neg hleft,
      if_neg hright, if_pos hquote', blockLength_literal hinside hquote, ih, List.length_cons,
      List.length_append, List.length_cons]
    congr 1
    omega
  | @byte depth b text hleft hright hquote _ ih =>
    have hquote' : ¬ (b = Ascii.doubleQuote ∨ b = Ascii.quote) := hquote
    rw [List.cons_append, blockLength, if_neg hleft, if_neg hright, if_neg hquote', ih,
      List.length_cons, Nat.add_right_comm]
    rfl

/-- What a reader of a block has still to read: the rest of a fragment, in a literal also the end of
that literal. -/
def BlockState.Closes (depth : Nat) (text : Bytes) : BlockState → Prop
  | .code => Nested depth text
  | .literal delimiter => ∃ inside rest, text = inside ++ delimiter :: rest ∧
      LiteralText delimiter inside ∧ Nested depth rest
  | .escaped delimiter => ∃ b inside rest, text = b :: (inside ++ delimiter :: rest) ∧
      LiteralText delimiter inside ∧ Nested depth rest

/-- The quote of the literal in which a reader of a block stands. -/
def BlockState.WellQuoted : BlockState → Prop
  | .code => True
  | .literal delimiter | .escaped delimiter => IsQuote delimiter

/-- **What is read as a block is a fragment that closes what is open**, and a closing brace. -/
theorem closes_of_blockLength {state : BlockState} {depth count n : Nat} {bytes : Bytes}
    (h : blockLength state depth count bytes = some n) (hstate : state.WellQuoted) :
    ∃ text rest, bytes = text ++ Ascii.rightBrace :: rest ∧ state.Closes depth text := by
  fun_induction blockLength state depth count bytes with
  | case1 => simp at h
  | case2 depth count rest ih =>
    obtain ⟨text, after, rfl, hcloses⟩ := ih h trivial
    exact ⟨_ :: text, after, rfl, .opening hcloses⟩
  | case3 count rest => exact ⟨[], rest, rfl, .nil⟩
  | case4 depth count rest hdepth _ ih =>
    obtain ⟨text, after, rfl, hcloses⟩ := ih h trivial
    obtain ⟨depth, rfl⟩ := Nat.exists_eq_succ_of_ne_zero hdepth
    exact ⟨_ :: text, after, rfl, .closing hcloses⟩
  | case5 depth count b rest hleft hright hquote ih =>
    obtain ⟨text, after, rfl, inside, rest', rfl, hinside, hrest⟩ := ih h hquote
    exact ⟨b :: (inside ++ b :: rest'), after, rfl, .literal hquote hinside hrest⟩
  | case6 depth count b rest hleft hright hquote ih =>
    obtain ⟨text, after, rfl, hcloses⟩ := ih h trivial
    exact ⟨b :: text, after, rfl, .byte hleft hright hquote hcloses⟩
  | case7 delimiter depth count rest ih =>
    obtain ⟨text, after, rfl, b, inside, rest', rfl, hinside, hrest⟩ := ih h hstate
    exact ⟨_, after, rfl, Ascii.backslash :: b :: inside, rest', rfl, .escaped hinside, hrest⟩
  | case8 depth count b rest hbackslash ih =>
    obtain ⟨text, after, rfl, hcloses⟩ := ih h trivial
    exact ⟨_, after, rfl, [], text, rfl, .nil, hcloses⟩
  | case9 delimiter depth count b rest hbackslash hne ih =>
    obtain ⟨text, after, rfl, inside, rest', rfl, hinside, hrest⟩ := ih h hstate
    exact ⟨_, after, rfl, b :: inside, rest', rfl, .byte hne hbackslash hinside, hrest⟩
  | case10 delimiter depth count b rest ih =>
    obtain ⟨text, after, rfl, inside, rest', rfl, hinside, hrest⟩ := ih h hstate
    exact ⟨_, after, rfl, b, inside, rest', rfl, hinside, hrest⟩

/-! ## Reading a block -/

theorem startsBounds_block {text : Bytes} (h : startsBounds text = false) (rest : Bytes) :
    startsBounds (text ++ Ascii.rightBrace :: rest) = false := by
  cases text with
  | nil => rfl
  | cons b text => exact h

theorem readItem_action {rest : Bytes} (h : startsBounds rest = false) (pos : Nat) :
    readItem pos Ascii.leftBrace rest = readAction pos rest := by
  rw [readItem]
  simp [h, show ofPunctuation? Ascii.leftBrace = none from rfl]

/-- **A balanced fragment is read verbatim.** -/
theorem readItem_fragment {text : Bytes} (htext : BalancedFragment text)
    (hstart : startsBounds text = false) (pos : Nat) (rest : Bytes) :
    readItem pos Ascii.leftBrace (text ++ Ascii.rightBrace :: rest) =
      .ok (.action text, ⟨pos + text.length + 2, rest⟩) := by
  have hlength := blockLength_of_nested htext 0 rest
  rw [Nat.zero_add] at hlength
  rw [readItem_action (startsBounds_block hstart rest), readAction, hlength]
  simp

/-- **Without a balanced fragment a block does not end.** -/
theorem readItem_unclosed {rest : Bytes} (hstart : startsBounds rest = false)
    (hnone : ∀ text, BalancedFragment text → ¬ text ++ [Ascii.rightBrace] <+: rest) (pos : Nat) :
    readItem pos Ascii.leftBrace rest =
      .error ⟨.unexpectedEnd, ⟨pos, pos + 1 + rest.length⟩⟩ := by
  rw [readItem_action hstart, readAction]
  cases hlength : blockLength .code 0 0 rest with
  | none => rfl
  | some n =>
    obtain ⟨text, after, rfl, htext⟩ := closes_of_blockLength hlength trivial
    exact absurd ⟨after, by simp⟩ (hnone text htext)

/-! ## Texts with a block -/

/-- The expansion of a text: of a pattern, or of the body of a macro that is being expanded. -/
def expandText (macros : Macros) (expanding : List Bytes) (origin : Option Span) (text : Bytes)
    (registry : Registry) : Expanded :=
  expand macros expanding origin (lex text).items (lex text).error .empty registry

variable {macros : Macros} {expanding : List Bytes} {origin : Option Span} {pre : Bytes}
  {registry last : Registry} {stream : Stream}

/-- A text that is expanded without a fault is read in the same way in front of a block, and what
follows is expanded with what it leads to. -/
theorem expandText_append (hpre : expandText macros expanding origin pre registry =
      (.ok stream, last)) (block : Bytes) :
    Scans ⟨0, pre ++ Ascii.leftBrace :: block⟩ (lex pre).items
      ⟨pre.length, Ascii.leftBrace :: block⟩ ∧
    ∀ rest fault, expand macros expanding origin ((lex pre).items ++ rest) fault .empty registry =
      expand macros expanding origin rest fault stream last := by
  have hfault : (lex pre).error = none := fault_eq_none_of_expand (congrArg Prod.fst hpre)
  constructor
  · have hcloses : Closes (Ascii.leftBrace :: block) := closes_cons (by decide) block
    have hwithin := (lexed_lex hfault).scans_within hcloses 0
    rwa [map_moveItem_zero, Nat.zero_add, Nat.zero_add] at hwithin
  · intro rest fault
    rw [expandText, hfault] at hpre
    rw [expand_append, hpre]

/-- **Action blocks are taken verbatim.** Behind a text that is expanded without a fault, a block
with a balanced fragment registers exactly that fragment, behind the fragments before, and reading
goes on at the byte behind its closing brace. If no balanced fragment and closing brace follow the
opening brace, the text is refused as one that ends too early, with nothing added for the block. -/
theorem expandText_block (hpre : expandText macros expanding origin pre registry =
      (.ok stream, last)) :
    (∀ text rest, BalancedFragment text → startsBounds text = false →
      ∀ reading, reading = lexFrom ⟨pre.length + text.length + 2, rest⟩ [] →
      ∃ next : Registry, next.toList = last.toList ++ [text] ∧ next.get? last.size = some text ∧
        next.header = last.header ∧
        expandText macros expanding origin
            (pre ++ Ascii.leftBrace :: (text ++ Ascii.rightBrace :: rest)) registry =
          expand macros expanding origin reading.items reading.error
            (stream.emit (.symbol (.action last.size))
              (origin.getD ⟨pre.length, pre.length + text.length + 2⟩)) next) ∧
    (∀ rest, startsBounds rest = false →
      (∀ text, BalancedFragment text → ¬ text ++ [Ascii.rightBrace] <+: rest) →
      ∀ e : Error, e = ⟨.unexpectedEnd, ⟨pre.length, pre.length + 1 + rest.length⟩⟩ →
      expandText macros expanding origin (pre ++ Ascii.leftBrace :: rest) registry =
          (.error e, last) ∧
        (expanding = [] → origin = none →
          parse macros (pre ++ Ascii.leftBrace :: rest) registry = (.error e, last))) := by
  refine ⟨?_, ?_⟩
  · rintro text rest htext hstart reading rfl
    obtain ⟨hscan, hexpand⟩ := expandText_append hpre (text ++ Ascii.rightBrace :: rest)
    have hblock := hscan.trans (.item (readItem_fragment htext hstart pre.length rest) (.refl _))
    refine ⟨last.add text, last.toList_add text, last.get?_add_self text, last.header_add text, ?_⟩
    rw [expandText, lex, hblock.lexFrom_eq_lexFrom, lexFrom_eq_append]
    simp only [List.append_nil, List.reverse_reverse, List.append_assoc, List.singleton_append]
    rw [hexpand, expand]
  · rintro rest hstart hnone e rfl
    obtain ⟨hscan, hexpand⟩ := expandText_append hpre rest
    have hstop := Stops.failed (by decide) (readItem_unclosed hstart hnone pre.length)
    have hfails : expandText macros expanding origin (pre ++ Ascii.leftBrace :: rest) registry =
        (.error ⟨.unexpectedEnd, ⟨pre.length, pre.length + 1 + rest.length⟩⟩, last) := by
      have hrest := hexpand [] (some ⟨.unexpectedEnd, ⟨pre.length, pre.length + 1 + rest.length⟩⟩)
      rw [List.append_nil] at hrest
      rw [expandText, lex, hscan.lexFrom_eq hstop]
      simp only [List.reverse_nil, List.nil_append]
      rw [hrest, expand.eq_def]
    refine ⟨hfails, ?_⟩
    rintro rfl rfl
    rw [parse, show tokenize macros _ registry = _ from hfails]

/-- A literal with an escaped quote and a brace in it, and a letter in braces: `"\"}"{x}`. -/
def literalFragment : Bytes := [34, 92, 34, 125, 34, 123, 120, 125]

theorem balanced_literalFragment : BalancedFragment literalFragment :=
  @Nested.literal 0 34 [92, 34, 125] _ (.inl rfl) (.escaped (.byte (by decide) (by decide) .nil))
    (.opening (.byte (by decide) (by decide) (by unfold IsQuote; decide) (.closing .nil)))

/-- A block with this fragment behind a letter, which registers the fragment and nothing else, and a
block that is opened twice and closed once. -/
theorem expandText_literalFragment :
    ∃ stream, expandText [] [] none [97] .empty = (.ok stream, .empty) ∧
      (expandText [] [] none ([97, 123] ++ literalFragment ++ [125, 98]) .empty).2.toList =
        [literalFragment] ∧
      (parse [] ([97, 123] ++ literalFragment ++ [125, 98]) .empty).1 =
        .ok (.concat (.concat (.byte 97) (.action 0)) (.byte 98)) ∧
      parse [] [97, 123, 123, 125] .empty = (.error ⟨.unexpectedEnd, ⟨1, 4⟩⟩, .empty) := by
  have hpre : expandText [] [] none [97] .empty =
      (.ok (Stream.empty.emitByte ⟨0, 1⟩ 97), .empty) := by cbv
  obtain ⟨hread, hunclosed⟩ := expandText_block hpre
  refine ⟨_, hpre, ?_, by cbv, ?_⟩
  · obtain ⟨next, hnext, -, -, hblock⟩ := hread literalFragment [98] balanced_literalFragment rfl
      ⟨[(.name [98], ⟨11, 12⟩)], none⟩ (by cbv)
    have htext : [97, 123] ++ literalFragment ++ [125, 98] =
        [97] ++ Ascii.leftBrace :: (literalFragment ++ Ascii.rightBrace :: [98]) := rfl
    rw [htext, hblock, expand_letter rfl, expand_nil]
    exact hnext
  · refine (hunclosed [123, 125] rfl ?_ _ rfl).2 rfl rfl
    rintro text htext ⟨rest, hrest⟩
    have hlength := blockLength_of_nested htext 0 rest
    rw [List.append_assoc, List.singleton_append] at hrest
    rw [hrest] at hlength
    exact absurd hlength (by simp [show blockLength .code 0 0 [123, 125] = none by decide])

end ActionRegex.Pattern
