import ActionRegex.Proofs.Pattern.Images

/-!
# Terms inside patterns

A term stands in a pattern as in a hole of a tree (`Context`). The items behind the term lead to the
same context whatever the tokens of the term are (`exists_context`): a stream that ends with a term
is an image of the stream that ends with one symbol in its place. The symbol is an action block that
is registered before all others.
-/

namespace ActionRegex.Pattern

/-! ## Trees with holes -/

/-- A tree with holes. -/
inductive Context where
  | hole
  | symbol (value : Symbol)
  | empty
  | concat (left right : Context)
  | alternate (left right : Context)
  | closure (body : Context)

namespace Context

/-- The tree with `t` in each hole. -/
def fill (t : Tree) : Context → Tree
  | hole => t
  | symbol s => .symbol s
  | empty => .empty
  | concat l r => .concat (l.fill t) (r.fill t)
  | alternate l r => .alternate (l.fill t) (r.fill t)
  | closure c => .closure (c.fill t)

/-- A symbol as a context: the first action block is the hole, and the others stand for those that
are registered one block earlier. -/
def ofSymbol : Symbol → Context
  | .byte b => symbol (.byte b)
  | .action 0 => hole
  | .action (index + 1) => symbol (.action index)

/-- A tree with holes in the place of the first action block. -/
def ofTree : Tree → Context
  | .symbol s => ofSymbol s
  | .empty => empty
  | .concat l r => concat (ofTree l) (ofTree r)
  | .alternate l r => alternate (ofTree l) (ofTree r)
  | .closure t => closure (ofTree t)

theorem fill_ofTree (t u : Tree) :
    (ofTree u).fill t = u.substitute fun s => (ofSymbol s).fill t := by
  induction u with
  | symbol s => rfl
  | empty => rfl
  | concat l r ihl ihr | alternate l r ihl ihr =>
    simp only [ofTree, fill, Tree.substitute, ihl, ihr]
  | closure u ih => simp only [ofTree, fill, Tree.substitute, ih]

end Context

/-! ## Terms in the place of the first action block -/

/-- The tokens that a symbol stands for if the first action block stands for a term. -/
inductive Plugs (t : Tree) : Symbol → List Token → Prop
  | byte (b : UInt8) (span : Span) : Plugs t (.byte b) [⟨.symbol (.byte b), span⟩]
  | hole {term : List Token} (h : Forms .term term t) : Plugs t (.action 0) term
  | action (index : Nat) (span : Span) :
    Plugs t (.action (index + 1)) [⟨.symbol (.action index), span⟩]

theorem size_of_toList {text : Bytes} {registry registry' : Registry}
    (h : registry.toList = text :: registry'.toList) : registry.size = registry'.size + 1 :=
  congrArg List.length h

/-- A term in the place of the first action block. -/
def Substitution.plug (t : Tree) : Substitution where
  Stands := Plugs t
  tree s := (Context.ofSymbol s).fill t
  Aligned registry registry' := registry.toList = [] :: registry'.toList
  forms := by
    rintro s term h
    cases h with
    | byte b span => exact .symbol rfl
    | hole h => exact h
    | action index span => exact .symbol rfl
  byte := .byte
  action h span := by
    rw [size_of_toList h]
    exact .action _ span
  add h text := by rw [Registry.toList_add, Registry.toList_add, h, List.cons_append]

/-- Tokens behind one registered action block have those without it as their image. -/
theorem image_plug (t : Tree) (before : Nat) (l : List Token) :
    Image (.plug t) (l.map (Token.move 1 before)) l := by
  induction l with
  | nil => exact .nil
  | cons x l ih =>
    obtain ⟨kind, span⟩ := x
    rw [List.map_cons]
    cases kind with
    | symbol s =>
      cases s with
      | byte b =>
        have hkind : (Token.move 1 before ⟨.symbol (.byte b), span⟩).kind = .symbol (.byte b) := rfl
        exact .symbol hkind (Plugs.byte b span) ih
      | action index =>
        have hkind : (Token.move 1 before ⟨.symbol (.action index), span⟩).kind =
            .symbol (.action (index + 1)) := by
          show TokenKind.symbol (.action (1 + index)) = _
          rw [Nat.add_comm]
        exact .symbol hkind (Plugs.action index span) ih
    | _ => exact .same (fun s h => nomatch h) rfl ih

/-- A stream that ends with a hole. -/
def holeStream (base : List Token) : Stream where
  tokens := ⟨.symbol (.action 0), ⟨0, 0⟩⟩ :: base.map (Token.move 1 0)
  size := base.length + 1
  size_eq := by simp

/-- A stream that ends with a term is an image of the stream that ends with a hole. -/
theorem image_holeStream {s : Stream} {t : Tree} {base : List Token}
    (h : Ends s.tokens .term t base) : Image (.plug t) (holeStream base).tokens s.tokens := by
  obtain ⟨term, hterm, htokens⟩ := h
  rw [htokens]
  exact .symbol rfl (Plugs.hole hterm) (image_plug t 0 base)

theorem endsTerm_of_ends {tokens base : List Token} {t : Tree} (hlinked : Linked tokens)
    (h : Ends tokens .term t base) : endsTerm base = false := by
  obtain ⟨term, hterm, rfl⟩ := h
  obtain ⟨x, rest, rfl, hx⟩ := hterm.exists_starts
  rw [List.reverse_cons, List.append_assoc] at hlinked
  exact hlinked.of_append_right.1 hx

theorem linked_holeStream {tokens base : List Token} {t : Tree} (hlinked : Linked tokens)
    (h : Ends tokens .term t base) : Linked (holeStream base).tokens := by
  have hbase : endsTerm base = false := endsTerm_of_ends hlinked h
  obtain ⟨term, -, rfl⟩ := h
  have himage := image_moved 1 0 base
  exact ⟨fun _ => himage.endsTerm_eq.trans hbase, himage.linked hlinked.of_append_right⟩

/-! ## Items behind a term -/

variable {macros : Macros}

/-- The tree of expanded items. -/
def treeOfExpanded : Expanded → Except Error Tree × Registry
  | (.error e, registry) => (.error e, registry)
  | (.ok s, registry) => (treeOfStream s, registry)

theorem parse_eq_treeOfExpanded (pattern : Bytes) (registry : Registry) :
    parse macros pattern registry = treeOfExpanded (tokenize macros pattern registry) := rfl

/-- What becomes of a pattern: a tree and action blocks, unless the pattern is too large, or refused
because an operand is missing. -/
inductive Gives (t : Tree) (registry : Registry) (missing : Prop) :
    Except Error Tree × Registry → Prop
  | tooLarge {e : Error} {registry' : Registry} (h : e.fault = .patternTooLarge) :
    Gives t registry missing (.error e, registry')
  | malformed {e : Error} {registry' : Registry} (hmissing : missing)
    (h : e.fault = .malformedExpression) : Gives t registry missing (.error e, registry')
  | tree {registry' : Registry} (hmissing : ¬ missing)
    (hregistry : registry'.toList = registry.toList) : Gives t registry missing (.ok t, registry')

theorem Gives.eq_of_isOk {t : Tree} {registry : Registry} {missing : Prop}
    {result : Except Error Tree × Registry} (h : Gives t registry missing result)
    (hok : result.1.isOk = true) : result.1 = .ok t := by
  cases h with
  | tooLarge | malformed => simp [Except.isOk, Except.toBool] at hok
  | tree => rfl

/-- **The items behind a term do not look into it.** -/
theorem exists_context {items : List (Item × Span)} {s whole : Stream} {registry last : Registry}
    {t u : Tree} {base : List Token} (hs : Linked s.tokens) (hends : Ends s.tokens .term t base)
    (hexpand : expand macros [] none items none s registry = (.ok whole, last))
    (htree : treeOfStream whole = .ok u) :
    ∃ C : Context, u = C.fill t ∧ ∀ items' (s' : Stream) (t' : Tree), SameItems items items' →
      Ends s'.tokens .term t' base →
      Gives (C.fill t') last False
        (treeOfExpanded (expand macros [] none items' none s' registry)) := by
  let first : Registry := { fragments := ([] :: registry.toList).toArray }
  have hfirst : first.toList = [] :: registry.toList := rfl
  generalize hole : expand macros [] none items none (holeStream base) first = result
  have hmirrors : ∀ items' (s' : Stream) (t' : Tree), SameItems items items' →
      Ends s'.tokens .term t' base →
      MirrorsExpanded (.plug t') result (expand macros [] none items' none s' registry) := by
    intro items' s' t' hitems hends'
    rw [← hole]
    exact mirrors_expand none (image_holeStream hends') hfirst hitems rfl
  have hplain := hmirrors items s t (SameItems.refl items) hends
  rw [hexpand] at hplain
  cases hplain with
  | @ok wholeHole _ lastHole _ himage haligned =>
    have hlinked : Linked wholeHole.tokens :=
      linked_expand (linked_holeStream hs hends) (congrArg Prod.fst hole)
    obtain ⟨v, hv, rfl⟩ := exists_treeOfStream_of_image himage hlinked htree
    refine ⟨.ofTree v, (Context.fill_ofTree t v).symm, fun items' s' t' hitems hends' => ?_⟩
    have hother := hmirrors items' s' t' hitems hends'
    generalize expand macros [] none items' none s' registry = result at hother
    cases hother with
    | tooLarge h => exact .tooLarge h
    | @ok _ wholeOther _ lastOther himage' haligned' =>
      have htree' : treeOfStream wholeOther = .ok ((Context.ofTree v).fill t') := by
        rw [treeOfStream_image himage' hlinked hv, Context.fill_ofTree]
        rfl
      have hlists := (show lastHole.toList = _ from haligned').symm.trans haligned
      rw [treeOfExpanded, htree']
      exact .tree id (List.cons.inj hlists).2

end ActionRegex.Pattern
