import ActionRegex.Pattern.Parser
import ActionRegex.Proofs.Pattern.Repetitions

/-!
# Token indexes

The operations here refer to tokens by their index in the order of the text, subtract only what is
there to be taken away, and have no case for parentheses in postfix order. An index that is out of
range, a difference below zero and such a parenthesis have no result (`none`).

The last term is found by going back from the end, so it starts at an index in range and can be
drained (`repeatTerm_eq`). Reordering takes an opening parenthesis off the operators that wait, and
never puts a closing one among them, so none is left in postfix order (`treeOfStream_eq`).
-/

namespace ActionRegex.Pattern

namespace Checked

/-! ## The last term -/

/-- The index of the parenthesis that opens the group in front of an index, if there is one. -/
def groupStart (tokens : List Token) (depth : Int) : Nat → Option (Option Nat)
  | 0 => some none
  | i + 1 =>
    match tokens[i]? with
    | none => none
    | some token =>
      match token.kind with
      | .closing => groupStart tokens (depth + 1) i
      | .opening => if depth - 1 = 0 then some (some i) else groupStart tokens (depth - 1) i
      | _ => groupStart tokens depth i

/-- The index of the first token of the term in front of an index, if there is one. -/
def termStart (tokens : List Token) : Nat → Option (Option Nat)
  | 0 => some none
  | i + 1 =>
    match tokens[i]? with
    | none => none
    | some token =>
      match token.kind with
      | .closure => termStart tokens i
      | .symbol _ | .empty => some (some i)
      | .closing => groupStart tokens 0 (i + 1)
      | _ => some none

theorem getElem?_reverse_append (x : Token) (before rest : List Token) :
    ((x :: before).reverse ++ rest)[before.length]? = some x := by
  rw [List.reverse_cons, List.append_assoc, List.getElem?_append_right (by simp)]
  simp

theorem groupStart_eq (before rest : List Token) (depth count : Nat) :
    groupStart (before.reverse ++ rest) (depth + 1 : Nat) before.length =
      some ((Stream.groupLength (depth + 1) count before).map (before.length + count - ·)) := by
  induction before generalizing rest depth count with
  | nil => rfl
  | cons x before ih =>
    have hcount : before.length + 1 + count = before.length + (count + 1) := by omega
    have hrest : (x :: before).reverse ++ rest = before.reverse ++ x :: rest := by simp
    rw [List.length_cons, groupStart, Stream.groupLength]
    simp only [getElem?_reverse_append, hcount]
    rw [hrest]
    cases x.kind with
    | opening =>
      cases depth with
      | zero => simp
      | succ depth =>
        rw [if_neg (by omega), show ((depth + 1 + 1 : Nat) : Int) - 1 = (depth + 1 : Nat) by omega]
        simp only [if_neg (show ¬ depth + 1 + 1 ≤ 1 by omega), Nat.add_sub_cancel]
        exact ih _ _ _
    | _ => exact ih _ _ _

theorem termStart_eq (before rest : List Token) :
    termStart (before.reverse ++ rest) before.length =
      some ((Stream.termLength before).map (before.length - ·)) := by
  induction before generalizing rest with
  | nil => rfl
  | cons x before ih =>
    have hrest : (x :: before).reverse ++ rest = before.reverse ++ x :: rest := by simp
    rw [List.length_cons, termStart]
    simp only [getElem?_reverse_append]
    rw [hrest]
    cases hx : x.kind with
    | closure =>
      rw [Stream.termLength_cons_closure hx, Option.map_map]
      simp only [ih, Function.comp_def, Nat.add_sub_add_right]
    | symbol s => rw [Stream.termLength_cons_operand (.inr ⟨s, hx⟩)]; rfl
    | empty => rw [Stream.termLength_cons_operand (.inl hx)]; rfl
    | closing =>
      rw [Stream.termLength_cons_closing hx, groupStart]
      have hx' : (before.reverse ++ x :: rest)[before.length]? = some x := by
        rw [← hrest, getElem?_reverse_append]
      simp only [hx', hx]
      exact groupStart_eq before (x :: rest) 0 1
    | _ => simp [Stream.termLength, hx]

/-! ## Repetitions -/

/-- The difference of two numbers, if it is not below zero. -/
def sub? (a b : Nat) : Option Nat := if b ≤ a then some (a - b) else none

/-- The tokens before an index. -/
def truncate (stream : Stream) (start : Nat) : Stream := stream.dropLast (stream.size - start)

/-- The tokens from an index on in the order of the text, and those before it. -/
def drain? (stream : Stream) (start : Nat) : Option (List Token × Stream) :=
  if start ≤ stream.size then
    some (stream.lastTokens (stream.size - start), truncate stream start)
  else none

/-- Repeats the tokens from an index on, within the size limit. -/
def writeOut (stream : Stream) (start min : Nat) (max : Option Nat) (span : Span) :
    Option (Except Error Stream) :=
  match sub? stream.size start, sub? Stream.maxTokens (Min.min stream.size Stream.maxTokens) with
  | some length, some room =>
    if length * Stream.copies min max > room then some (.error ⟨.patternTooLarge, span⟩)
    else
      (drain? stream start).map fun (term, kept) =>
        .ok ((Stream.emitRepeated term min max span (kept.emit .opening span)).emit .closing span)
  | _, _ => none

/-- Repeats the last term. -/
def repeatTerm (stream : Stream) (min : Nat) (max : Option Nat) (span : Span) :
    Option (Except Error Stream) :=
  if max.any (· < min) then some (.error ⟨.invalidRepetition, span⟩)
  else if min > maxRepetition || max.any (· > maxRepetition) then
    some (.error ⟨.tooManyRepetitions, span⟩)
  else
    match termStart stream.tokens.reverse stream.size with
    | none => none
    | some none => some (.error ⟨.nothingToRepeat, span⟩)
    | some (some start) =>
      match min, max with
      | 1, some 1 => some (.ok stream)
      | 0, none => some (.ok (stream.emit .closure span))
      | _, some 0 => some (.ok ((truncate stream start).emit .empty span))
      | min, max => writeOut stream start min max span

theorem writeOut_eq {stream : Stream} {length : Nat} (hle : length ≤ stream.size) (min : Nat)
    (max : Option Nat) (span : Span) :
    writeOut stream (stream.size - length) min max span =
      some (stream.writeOut length min max span) := by
  have hlength : stream.size - (stream.size - length) = length := Nat.sub_sub_self hle
  have hroom : Stream.maxTokens - Min.min stream.size Stream.maxTokens =
      Stream.maxTokens - stream.size := by omega
  unfold writeOut Stream.writeOut
  simp only [sub?, drain?, truncate, if_pos (Nat.sub_le _ _), if_pos (Nat.min_le_right _ _),
    hlength, hroom, Option.map_some]
  split <;> rfl

/-- **A repetition finds its term in range.** -/
theorem repeatTerm_eq (stream : Stream) (min : Nat) (max : Option Nat) (span : Span) :
    repeatTerm stream min max span = some (stream.repeatTerm min max span) := by
  have hstart := termStart_eq stream.tokens []
  rw [List.append_nil, ← stream.size_eq] at hstart
  unfold repeatTerm Stream.repeatTerm
  rw [hstart]
  split
  · rfl
  split
  · rfl
  cases hterm : Stream.termLength stream.tokens with
  | none => rfl
  | some length =>
    have hle : length ≤ stream.size := by
      obtain ⟨x, rest, base, htokens, rfl, -⟩ := Stream.exists_term_of_termLength hterm
      rw [stream.size_eq, htokens]
      simp
    have htruncate : truncate stream (stream.size - length) = stream.dropLast length := by
      rw [truncate, Nat.sub_sub_self hle]
    simp only [Option.map_some, htruncate, writeOut_eq hle]
    rcases min with _ | _ | min <;> rcases max with _ | _ | _ | max <;> rfl

/-- The stream after an item that needs neither macros nor the registry. -/
def addItem (stream : Stream) (span : Span) : Item → Option (Except Error Stream)
  | .repetition min max => repeatTerm stream min max span
  | item => some (Pattern.addItem stream span item)

theorem addItem_eq (stream : Stream) (span : Span) (item : Item) :
    addItem stream span item = some (Pattern.addItem stream span item) := by
  unfold addItem
  split
  · exact repeatTerm_eq stream _ _ span
  · rfl

/-! ## Postfix order -/

/-- Takes the operands of a token from the stack and puts its tree in their place. -/
def applyToken (token : Token) (stack : List (Tree × Span)) :
    Option (Except Error (List (Tree × Span))) :=
  match token.kind with
  | .opening | .closing => none
  | _ => some (Pattern.applyToken token stack)

/-- Folds tokens in postfix order. -/
def foldTokens (stack : List (Tree × Span)) :
    List Token → Option (Except Error (List (Tree × Span)))
  | [] => some (.ok stack)
  | token :: rest =>
    match applyToken token stack with
    | none => none
    | some (.error e) => some (.error e)
    | some (.ok stack) => foldTokens stack rest

/-- The one tree that is left. -/
def takeTree (stack : List (Tree × Span)) : Option (Except Error Tree) :=
  match stack.length with
  | 0 => some (.ok .empty)
  | 1 => some (.ok (stack.head?.elim .empty Prod.fst))
  | _ => (stack.reverse[1]?).map fun (_, span) => .error ⟨.malformedExpression, span⟩

/-- The tree of a token stream. -/
def treeOfStream (stream : Stream) : Option (Except Error Tree) :=
  match toPostfix stream.tokens.reverse with
  | .error e => some (.error e)
  | .ok tokens =>
    match foldTokens [] tokens with
    | none => none
    | some (.error e) => some (.error e)
    | some (.ok stack) => takeTree stack

/-- The operators that wait for their place are taken to it without parentheses. -/
theorem not_isParen_of_append {ops output : List Token} (hopening : ∀ x ∈ ops, x.kind ≠ .opening)
    (hclosing : ∀ x ∈ ops, x.kind ≠ .closing) (houtput : ∀ x ∈ output, x.kind.isParen = false) :
    ∀ x ∈ ops.reverse ++ output, x.kind.isParen = false := by
  intro x hx
  rcases List.mem_append.mp hx with hop | hout
  · have hop := List.mem_reverse.mp hop
    cases hkind : x.kind with
    | opening => exact absurd hkind (hopening x hop)
    | closing => exact absurd hkind (hclosing x hop)
    | _ => rfl
  · exact houtput x hout

/-- No parenthesis is left in postfix order. -/
theorem not_isParen_of_reorder {output waiting rest result : List Token}
    (h : reorder output waiting rest = .ok result)
    (houtput : ∀ x ∈ output, x.kind.isParen = false)
    (hwaiting : ∀ x ∈ waiting, x.kind ≠ .closing) : ∀ x ∈ result, x.kind.isParen = false := by
  fun_induction reorder output waiting rest with
  | case1 output waiting =>
    obtain ⟨rfl, hopening⟩ := of_popAll h
    exact not_isParen_of_append hopening hwaiting houtput
  | case2 output waiting x rest s hx ih | case3 output waiting x rest hx ih
  | case4 output waiting x rest hx ih =>
    exact ih h (List.forall_mem_cons.mpr ⟨by rw [hx]; rfl, houtput⟩) hwaiting
  | case5 output waiting x rest hx ih =>
    exact ih h houtput (List.forall_mem_cons.mpr ⟨by simp [hx], hwaiting⟩)
  | case6 => simp at h
  | case7 output waiting x rest hx output' waiting' hclose ih =>
    obtain ⟨ops, top, rfl, rfl, -, hopening⟩ := exists_of_closeGroup hclose
    obtain ⟨hops, htop⟩ := List.forall_mem_append.mp hwaiting
    exact ih h (not_isParen_of_append hopening hops houtput) (List.forall_mem_cons.mp htop).2
  | case8 output waiting x rest hx output' waiting' hpop ih
  | case9 output waiting x rest hx output' waiting' hpop ih =>
    obtain ⟨ops, rfl, rfl, hbinds, -⟩ := exists_of_popOperators hpop
    obtain ⟨hops, hunder⟩ := List.forall_mem_append.mp hwaiting
    refine ih h (not_isParen_of_append (fun op hop => ne_opening_of_bindsFirst (hbinds op hop))
      hops houtput) (List.forall_mem_cons.mpr ⟨by simp [hx], hunder⟩)

theorem foldTokens_eq {tokens : List Token} (h : ∀ x ∈ tokens, x.kind.isParen = false)
    (stack : List (Tree × Span)) :
    foldTokens stack tokens = some (Pattern.foldTokens stack tokens) := by
  induction tokens generalizing stack with
  | nil => rfl
  | cons x tokens ih =>
    obtain ⟨hx, htokens⟩ := List.forall_mem_cons.mp h
    have happly : applyToken x stack = some (Pattern.applyToken x stack) := by
      unfold applyToken
      cases hkind : x.kind with
      | opening => simp [hkind, TokenKind.isParen] at hx
      | closing => simp [hkind, TokenKind.isParen] at hx
      | _ => rfl
    rw [foldTokens, happly, Pattern.foldTokens]
    cases Pattern.applyToken x stack with
    | error e => rfl
    | ok stack' => exact ih htokens stack'

theorem takeTree_eq (stack : List (Tree × Span)) :
    takeTree stack = some (Pattern.takeTree stack) := by
  obtain ⟨below, rfl⟩ : ∃ below : List (Tree × Span), stack = below.reverse :=
    ⟨_, (List.reverse_reverse _).symm⟩
  unfold takeTree Pattern.takeTree
  rw [List.length_reverse, List.reverse_reverse]
  rcases below with _ | ⟨first, _ | ⟨second, rest⟩⟩ <;> rfl

/-- **The tree of a stream is taken from it without a failed access.** -/
theorem treeOfStream_eq (stream : Stream) :
    treeOfStream stream = some (Pattern.treeOfStream stream) := by
  unfold treeOfStream Pattern.treeOfStream treeOfPostfix
  cases hcode : toPostfix stream.tokens.reverse with
  | error e => rfl
  | ok code =>
    have hparens := not_isParen_of_reorder (toPostfix_eq_ok_iff.mp hcode) (by simp) (by simp)
    simp only [foldTokens_eq fun x hx => hparens x (List.mem_reverse.mpr hx)]
    cases Pattern.foldTokens [] code with
    | error e => rfl
    | ok stack => exact takeTree_eq stack

end Checked

end ActionRegex.Pattern
