import ActionRegex.Proofs.Pattern.SpelledOut

/-!
# Patterns behind other action blocks

A parser that starts with blocks in its registry gives the actions of a pattern higher indexes, and
does nothing else in another way: each operation on streams and each step of the reordering commutes
with the change of indexes (`Stream.shift`, `Tree.shift`), and a refused pattern is refused for the
same fault at the same place (`renumbered_parse`). So the registry is only appended to.
-/

namespace ActionRegex.Pattern

variable {k : Nat}

/-! ## Streams -/

theorem move_zero (span : Span) : span.move 0 = span := by
  simp [Span.move]

/-- The stream with the indexes of its actions counted from `k` on. -/
def Stream.shift (k : Nat) (s : Stream) : Stream :=
  ⟨s.tokens.map (Token.move k 0), s.size, by simp [s.size_eq]⟩

namespace Stream

theorem ext_tokens {s t : Stream} (h : s.tokens = t.tokens) : s = t := by
  obtain ⟨tokens, size, hsize⟩ := s
  obtain ⟨tokens', size', hsize'⟩ := t
  obtain rfl : tokens = tokens' := h
  obtain rfl : size = size' := hsize.trans hsize'.symm
  rfl

theorem within_nil_iff {s t : Stream} : Within k 0 [] s t ↔ t = s.shift k := by
  rw [Within, List.append_nil]
  constructor
  · intro h
    exact ext_tokens h
  · rintro rfl
    rfl

theorem within_shift (k : Nat) (s : Stream) : Within k 0 [] s (s.shift k) := within_nil_iff.mpr rfl

theorem opened_nil : Opened [] := fun _ hlast => nomatch hlast

theorem emit_shift (s : Stream) (kind : TokenKind) (span : Span) :
    (s.shift k).emit (kind.shift k) span = (s.emit kind span).shift k := by
  have hemit := (within_shift k s).emit opened_nil (fun (_ : kind = .closing) _ => rfl) span
  rw [move_zero] at hemit
  exact within_nil_iff.mp hemit

theorem emitBytes_shift (s : Stream) (span : Span) (bytes : Bytes) :
    (s.shift k).emitBytes span bytes = (s.emitBytes span bytes).shift k := by
  have hbytes := (within_shift k s).emitBytes opened_nil span bytes
  rw [move_zero] at hbytes
  exact within_nil_iff.mp hbytes

theorem emitSet_shift (s : Stream) (span : Span) (set : ByteSet) :
    (s.shift k).emitSet span set = (s.emitSet span set).shift k := by
  have hset := (within_shift k s).emitSet opened_nil span set
  rw [move_zero] at hset
  exact within_nil_iff.mp hset

theorem emitGroup_shift (s inner : Stream) (span : Span) :
    (s.shift k).emitGroup (inner.shift k) span = (s.emitGroup inner span).shift k := by
  have hgroup := (within_shift k s).emitGroup opened_nil (within_shift k inner) span
  rw [move_zero] at hgroup
  exact within_nil_iff.mp hgroup

/-! ## Repetitions -/

theorem termLength_shift (s : Stream) : termLength (s.shift k).tokens = termLength s.tokens := by
  cases hlength : termLength s.tokens with
  | some n =>
    have hwithin := termLength_within hlength k 0 []
    rwa [List.append_nil] at hwithin
  | none =>
    have halike := (image_moved k 0 s.tokens).termLength
    rw [hlength] at halike
    generalize hfound : termLength (s.tokens.map (Token.move k 0)) = found at halike
    cases halike
    exact hfound

theorem dropLast_shift (s : Stream) (n : Nat) :
    (s.shift k).dropLast n = (s.dropLast n).shift k :=
  ext_tokens (List.map_drop ..).symm

theorem lastTokens_shift (s : Stream) (n : Nat) :
    (s.shift k).lastTokens n = (s.lastTokens n).map (Token.move k 0) := by
  rw [lastTokens, lastTokens, List.map_reverse, List.map_take]
  rfl

theorem emitAll_shift (s : Stream) (term : List Token) :
    (s.shift k).emitAll (term.map (Token.move k 0)) = (s.emitAll term).shift k := by
  induction term generalizing s with
  | nil => rfl
  | cons x term ih =>
    show emitAll ((s.shift k).emit (x.kind.shift k) (x.span.move 0)) _ = _
    rw [move_zero, emit_shift, ih]
    rfl

theorem copying_shift (k : Nat) (term : List Token) (span : Span) :
    Copying (fun s t => t = s.shift k) term (term.map (Token.move k 0)) span span where
  emit := by
    rintro s _ kind hkind rfl
    rw [← emit_shift]
    cases kind with
    | symbol value => exact absurd rfl (hkind value)
    | _ => rfl
  copy := by
    rintro s _ rfl
    exact emitAll_shift s term

theorem writeOut_shift (s : Stream) (length min : Nat) (max : Option Nat) (span : Span) :
    (s.shift k).writeOut length min max span =
      (s.writeOut length min max span).map (Stream.shift k) := by
  have hopened := (copying_shift k (s.lastTokens length) span).emitRepeated min max
    (emit_shift (s.dropLast length) .opening span)
  unfold writeOut
  rw [show (s.shift k).size = s.size from rfl, dropLast_shift, lastTokens_shift]
  split
  · rfl
  · refine congrArg Except.ok ?_
    rw [← emit_shift, ← hopened]
    rfl

theorem repeatTerm_shift (s : Stream) (min : Nat) (max : Option Nat) (span : Span) :
    (s.shift k).repeatTerm min max span = (s.repeatTerm min max span).map (Stream.shift k) := by
  unfold repeatTerm
  rw [termLength_shift]
  split
  · rfl
  · split
    · rfl
    · split
      · rfl
      · next length _ =>
        split
        · rfl
        · exact congrArg Except.ok (emit_shift s .closure span)
        · rw [dropLast_shift]
          exact congrArg Except.ok (emit_shift _ .empty span)
        · exact writeOut_shift s length _ _ span

end Stream

theorem addItem_shift (s : Stream) (span : Span) (item : Item) :
    addItem (s.shift k) span item = (addItem s span item).map (Stream.shift k) := by
  cases item with
  | opening => exact congrArg Except.ok (s.emit_shift .opening span)
  | closing => exact congrArg Except.ok (s.emit_shift .closing span)
  | bar => exact congrArg Except.ok (s.emit_shift .alternation span)
  | repetition min max => exact s.repeatTerm_shift min max span
  | byte b => exact congrArg Except.ok (s.emit_shift (.symbol (.byte b)) span)
  | oneOf set => exact congrArg Except.ok (s.emitSet_shift span set)
  | quoted bytes => exact congrArg Except.ok (s.emitBytes_shift span bytes)
  | action | name => rfl

/-! ## Expansion -/

/-- A parser behind the blocks of `first`: its result is the same but for the indexes, and the
registry has the same blocks behind those of `first`. -/
structure Renumbered {α : Type} (shift : Nat → α → α) (first : Registry)
    (alone behind : Except Error α × Registry) : Prop where
  result : behind.1 = alone.1.map (shift first.size)
  registry : Behind first alone.2 behind.2

section Renumbered

variable {α : Type} {shift : Nat → α → α} {first last : Registry} {behind : Except Error α × Registry}

theorem Renumbered.exists_of_error {e : Error}
    (h : Renumbered shift first (.error e, last) behind) :
    ∃ last', behind = (.error e, last') ∧ Behind first last last' :=
  ⟨behind.2, Prod.ext h.result rfl, h.registry⟩

theorem Renumbered.exists_of_ok {x : α} (h : Renumbered shift first (.ok x, last) behind) :
    ∃ last', behind = (.ok (shift first.size x), last') ∧ Behind first last last' :=
  ⟨behind.2, Prod.ext h.result rfl, h.registry⟩

end Renumbered

variable {macros : Macros} {expanding : List Bytes} {origin : Option Span} {first : Registry}

/-- **The items of a pattern are expanded in the same way behind other blocks.** -/
theorem Expands.renumbered {depth : Nat} {items : List (Item × Span)} {fault : Option Error}
    {s : Stream} {registry registry' : Registry} {result : Expanded}
    (h : Expands macros depth expanding origin items fault s registry result)
    (hregistry : Behind first registry registry') :
    Renumbered Stream.shift first result
      (expand macros expanding origin items fault (s.shift first.size) registry') := by
  induction h generalizing registry' with
  | done =>
    rw [expand_nil]
    exact ⟨rfl, hregistry⟩
  | failed =>
    rw [expand.eq_def]
    exact ⟨rfl, hregistry⟩
  | @action depth expanding origin text span rest fault s registry result _ ih =>
    have hindex : (TokenKind.symbol (.action registry.size)).shift first.size =
        .symbol (.action registry'.size) := by
      rw [hregistry.size_eq]
      rfl
    rw [expand, ← hindex, Stream.emit_shift]
    exact ih (hregistry.add text)
  | @letter depth expanding origin b span rest fault s registry result hbody _ ih =>
    rw [expand_letter hbody]
    have hbyte := s.emit_shift (k := first.size) (.symbol (.byte b)) (origin.getD span)
    rw [Stream.emitByte, show TokenKind.symbol (.byte b) =
      (TokenKind.symbol (.byte b)).shift first.size from rfl, hbyte]
    exact ih hregistry
  | unknown hbody hname =>
    rw [expand_unknown hbody hname]
    exact ⟨rfl, hregistry⟩
  | recursive hbody hname =>
    rw [expand_recursive hbody hname]
    exact ⟨rfl, hregistry⟩
  | refused hbody hname _ ih =>
    -- the body is expanded from the stream without tokens
    obtain ⟨last', hinner, hlast⟩ := (ih hregistry).exists_of_error
    rw [show Stream.shift first.size .empty = .empty from rfl] at hinner
    rw [expand_reference hbody hname, hinner]
    exact ⟨rfl, hlast⟩
  | @reference depth expanding origin name body span rest fault s inner registry₁ registry₂ result
      hbody hname _ _ ihInner ih =>
    obtain ⟨last', hinner, hlast⟩ := (ihInner hregistry).exists_of_ok
    rw [show Stream.shift first.size .empty = .empty from rfl] at hinner
    rw [expand_reference hbody hname, hinner]
    simp only [Stream.emitGroup_shift]
    exact ih hlast
  | @rejected depth expanding origin item span rest fault s registry e haction hname hadd =>
    rw [expand_item haction hname, addItem_shift, hadd]
    exact ⟨rfl, hregistry⟩
  | @item depth expanding origin item span rest fault s added registry result haction hname hadd _
      ih =>
    rw [expand_item haction hname, addItem_shift, hadd]
    exact ih hregistry

theorem renumbered_tokenize (macros : Macros) (pattern : Bytes) (first : Registry) :
    Renumbered Stream.shift first (tokenize macros pattern .empty)
      (tokenize macros pattern first) :=
  (expands_expand (Nat.le_refl _)).renumbered (Behind.empty first)

/-! ## Postfix order -/

variable {x : Token}

theorem kind_move_eq_opening {before : Nat} :
    (x.move k before).kind = .opening ↔ x.kind = .opening :=
  x.kind.shift_eq_iff k (by simp)

theorem span_move (x : Token) : (x.move k 0).span = x.span := move_zero x.span

theorem closeGroup_shift (output waiting : List Token) :
    closeGroup (output.map (Token.move k 0)) (waiting.map (Token.move k 0)) =
      (closeGroup output waiting).map
        (Prod.map (List.map (Token.move k 0)) (List.map (Token.move k 0))) := by
  induction waiting generalizing output with
  | nil => rfl
  | cons top waiting ih =>
    rw [List.map_cons, closeGroup, closeGroup]
    by_cases htop : top.kind = .opening
    · rw [if_pos htop, if_pos (kind_move_eq_opening.mpr htop)]
      rfl
    · rw [if_neg htop, if_neg fun hmoved => htop (kind_move_eq_opening.mp hmoved)]
      exact ih (top :: output)

theorem placeToken_shift (output waiting : List Token) (x : Token) :
    placeToken (output.map (Token.move k 0)) (waiting.map (Token.move k 0)) (x.move k 0) =
      (placeToken output waiting x).map
        (Prod.map (List.map (Token.move k 0)) (List.map (Token.move k 0))) := by
  cases hplace : placeToken output waiting x with
  | some placed =>
    have hwithin := placeToken_within hplace Stream.opened_nil k 0 []
    simp only [List.append_nil] at hwithin
    exact hwithin
  | none =>
    -- only a closing parenthesis may have no place
    obtain ⟨kind, span⟩ := x
    cases kind with
    | closing =>
      have hclose := closeGroup_shift (k := k) output waiting
      rw [show closeGroup output waiting = none from hplace] at hclose
      exact hclose
    | _ => exact nomatch hplace

theorem popAll_shift (output waiting : List Token) :
    popAll (output.map (Token.move k 0)) (waiting.map (Token.move k 0)) =
      (popAll output waiting).map (List.map (Token.move k 0)) := by
  induction waiting generalizing output with
  | nil => rfl
  | cons top waiting ih =>
    rw [List.map_cons, popAll, popAll, span_move]
    by_cases htop : top.kind = .opening
    · rw [if_pos htop, if_pos (kind_move_eq_opening.mpr htop)]
      rfl
    · rw [if_neg htop, if_neg fun hmoved => htop (kind_move_eq_opening.mp hmoved)]
      exact ih (top :: output)

theorem reorder_shift (output waiting rest : List Token) :
    reorder (output.map (Token.move k 0)) (waiting.map (Token.move k 0))
        (rest.map (Token.move k 0)) =
      (reorder output waiting rest).map (List.map (Token.move k 0)) := by
  induction rest generalizing output waiting with
  | nil => exact popAll_shift output waiting
  | cons x rest ih =>
    rw [List.map_cons, reorder_cons, reorder_cons, placeToken_shift, span_move]
    cases placeToken output waiting x with
    | none => rfl
    | some placed => exact ih placed.1 placed.2

/-! ## Folding -/

theorem applyToken_shift (x : Token) (stack : List (Tree × Span)) :
    applyToken (x.move k 0) (stack.map (moveTree k 0)) =
      (applyToken x stack).map (List.map (moveTree k 0)) := by
  cases happly : applyToken x stack with
  | ok stack' =>
    have hwithin := applyToken_within happly k 0 []
    simp only [List.append_nil] at hwithin
    exact hwithin
  | error e =>
    -- the operands of the token are missing, and are missing behind other blocks
    rw [Token.move, move_zero]
    obtain ⟨kind, span⟩ := x
    cases kind with
    | symbol | empty => simp [applyToken] at happly
    | opening | closing =>
      obtain rfl := Except.error.inj happly
      rfl
    | closure =>
      cases stack with
      | nil =>
        obtain rfl := Except.error.inj happly
        rfl
      | cons => simp [applyToken] at happly
    | alternation | concatenation =>
      rcases stack with _ | ⟨right, _ | ⟨left, below⟩⟩
      · obtain rfl := Except.error.inj happly
        rfl
      · obtain rfl := Except.error.inj happly
        rfl
      · simp [applyToken] at happly

theorem foldTokens_shift (stack : List (Tree × Span)) (tokens : List Token) :
    foldTokens (stack.map (moveTree k 0)) (tokens.map (Token.move k 0)) =
      (foldTokens stack tokens).map (List.map (moveTree k 0)) := by
  induction tokens generalizing stack with
  | nil => rfl
  | cons x tokens ih =>
    rw [List.map_cons, foldTokens, foldTokens, applyToken_shift]
    cases applyToken x stack with
    | error e => rfl
    | ok stack => exact ih stack

theorem takeTree_shift (stack : List (Tree × Span)) :
    takeTree (stack.map (moveTree k 0)) = (takeTree stack).map (Tree.shift k) := by
  unfold takeTree
  rw [← List.map_reverse]
  cases stack.reverse with
  | nil => rfl
  | cons bottom others =>
    cases others with
    | nil => rfl
    | cons second others =>
      show Except.error (Error.mk .malformedExpression (second.2.move 0)) = _
      rw [move_zero]
      rfl

/-- **A stream has the same tree behind other blocks**, or the same fault. -/
theorem treeOfStream_shift (s : Stream) :
    treeOfStream (s.shift k) = (treeOfStream s).map (Tree.shift k) := by
  have hcode : toPostfix (s.shift k).tokens.reverse =
      (toPostfix s.tokens.reverse).map (List.map (Token.move k 0)) := by
    have hreorder := reorder_shift (k := k) [] [] s.tokens.reverse
    rw [List.map_nil, List.map_reverse] at hreorder
    unfold toPostfix
    rw [show (s.shift k).tokens = s.tokens.map (Token.move k 0) from rfl, hreorder]
    cases reorder [] [] s.tokens.reverse with
    | error e => rfl
    | ok code => exact congrArg Except.ok (List.map_reverse ..).symm
  unfold treeOfStream
  rw [hcode]
  cases toPostfix s.tokens.reverse with
  | error e => rfl
  | ok code =>
    have hfold := foldTokens_shift (k := k) [] code
    show treeOfPostfix (code.map (Token.move k 0)) = (treeOfPostfix code).map (Tree.shift k)
    unfold treeOfPostfix
    rw [show foldTokens [] (code.map (Token.move k 0)) = _ from hfold]
    cases foldTokens [] code with
    | error e => rfl
    | ok stack => exact takeTree_shift stack

/-! ## Patterns -/

/-- **A pattern is parsed in the same way behind other action blocks**, whether it is refused or
not. -/
theorem renumbered_parse (macros : Macros) (pattern : Bytes) (first : Registry) :
    Renumbered Tree.shift first (parse macros pattern .empty) (parse macros pattern first) := by
  obtain ⟨hresult, hregistry⟩ := renumbered_tokenize macros pattern first
  unfold parse
  generalize tokenize macros pattern .empty = alone at hresult hregistry
  generalize tokenize macros pattern first = behind at hresult hregistry
  obtain ⟨alone, last⟩ := alone
  obtain ⟨behind, last'⟩ := behind
  obtain rfl : behind = alone.map (Stream.shift first.size) := hresult
  cases alone with
  | error e => exact ⟨rfl, hregistry⟩
  | ok s => exact ⟨treeOfStream_shift s, hregistry⟩

end ActionRegex.Pattern
