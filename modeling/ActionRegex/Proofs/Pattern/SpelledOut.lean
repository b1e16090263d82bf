import ActionRegex.Proofs.Pattern.Contexts
import ActionRegex.Proofs.Pattern.Recursion
import ActionRegex.Proofs.Pattern.Within.Cutting
import ActionRegex.Proofs.Pattern.Within.Rules

/-!
# References that are spelled out

A reference to a macro can be replaced by the text of the macro in parentheses
(`parse_spelledOut`). The text in front is read as it is read alone, whatever follows
(`exists_lexed_of_name`), and the text behind as it is read anywhere. The body is expanded with the
same result as a pattern of its own, inside the macro and in place: that the macro is being expanded
makes no difference, because a body that can be expanded does not lead back to its macro
(`Expands.expand_of_not_reached`). From there on the two streams have the same kinds of tokens, and
the two registries are the same.
-/

namespace ActionRegex.Pattern

open Relation (TransGen ReflTransGen)

variable {macros : Macros} {expanding : List Bytes} {origin : Option Span}

/-! ## Reading -/

/-- A name that is read in front of a text: the text before it is read to its end, and the text
behind it is read apart from it. -/
theorem exists_lexed_of_name {pre name post : Bytes}
    (hname : (.name name, ⟨pre.length, pre.length + name.length⟩) ∈ (lex (pre ++ name ++ post)).items) :
    ∃ items, Lexed ⟨0, pre⟩ items ∧
      lex (pre ++ name ++ post) =
        ⟨items ++ (.name name, ⟨pre.length, pre.length + name.length⟩) ::
          (lex post).items.map (moveItem (pre.length + name.length)),
        (lex post).error.map (Error.move (pre.length + name.length))⟩ := by
  obtain ⟨last, hscan, -⟩ := exists_scans_lex (pre ++ name ++ post)
  obtain ⟨items₁, items₂, b, rest, ⟨pos, after⟩, -, hbefore, hread, hstop, -⟩ := hscan.of_mem hname
  simp only at hstop
  subst hstop
  obtain ⟨u, hu, hpos⟩ := hbefore.exists_append
  simp only [Nat.zero_add] at hu hpos
  rw [List.append_assoc] at hu
  obtain ⟨rfl, hrest⟩ := List.append_inj hu hpos
  obtain ⟨v, hv⟩ := reads_readItem hread
  have hvrest : b :: rest = v ++ after := hv.rest
  have hvpos : pre.length + name.length = pre.length + v.length := hv.pos
  obtain ⟨rfl, rfl⟩ := List.append_inj (hrest.trans hvrest) (by omega)
  refine ⟨items₁, ?_, ?_⟩
  · rw [← hrest, List.append_assoc] at hbefore
    exact hbefore.lexed_of_append
  · have hwhole := hbefore.trans (.item hread (.refl _))
    rw [lex, hwhole.lexFrom_eq_lexFrom, lexFrom_move]
    simp

theorem closes_leftParen (rest : Bytes) : Closes (Ascii.leftParen :: rest) :=
  closes_cons (by decide) rest

/-- A text in parentheses between two texts. -/
theorem exists_lex_wrap {pre body : Bytes} {items inner : List (Item × Span)}
    (hpre : Lexed ⟨0, pre⟩ items) (hbody : Lexed ⟨0, body⟩ inner) (post : Bytes) :
    ∃ (opening closing : Span) (k : Nat),
      lex (pre ++ wrap body ++ post) =
        ⟨items ++ (.opening, opening) :: (inner.map (moveItem (pre.length + 1)) ++
          (.closing, closing) :: (lex post).items.map (moveItem k)),
        (lex post).error.map (Error.move k)⟩ := by
  have htext : pre ++ wrap body ++ post =
      pre ++ Ascii.leftParen :: (body ++ Ascii.rightParen :: post) := by
    simp [wrap]
  have hfront : Scans ⟨0, pre ++ Ascii.leftParen :: (body ++ Ascii.rightParen :: post)⟩ items
      ⟨pre.length, Ascii.leftParen :: (body ++ Ascii.rightParen :: post)⟩ := by
    have hwithin := hpre.scans_within (closes_leftParen (body ++ Ascii.rightParen :: post)) 0
    rw [map_moveItem_zero, Nat.zero_add, Nat.zero_add] at hwithin
    exact hwithin
  have hinner : Scans ⟨pre.length + 1, body ++ Ascii.rightParen :: post⟩
      (inner.map (moveItem (pre.length + 1)))
      ⟨pre.length + 1 + (0 + body.length), Ascii.rightParen :: post⟩ :=
    hbody.scans_within (closes_rightParen post) (pre.length + 1)
  have hopening : readItem pre.length Ascii.leftParen (body ++ Ascii.rightParen :: post) =
      .ok (.opening, ⟨pre.length + 1, body ++ Ascii.rightParen :: post⟩) := rfl
  have hclosing : readItem (pre.length + 1 + (0 + body.length)) Ascii.rightParen post =
      .ok (.closing, ⟨pre.length + 1 + (0 + body.length) + 1, post⟩) := rfl
  have hwhole := hfront.trans (.item hopening (hinner.trans (.item hclosing (.refl _))))
  refine ⟨⟨pre.length, pre.length + 1⟩,
    ⟨pre.length + 1 + (0 + body.length), pre.length + 1 + (0 + body.length) + 1⟩,
    pre.length + 1 + (0 + body.length) + 1, ?_⟩
  rw [htext, lex, hwhole.lexFrom_eq_lexFrom, lexFrom_move]
  simp only [List.append_nil, List.reverse_reverse, List.append_assoc, List.cons_append,
    List.nil_append]

/-! ## Bodies on their own -/

/-- More macros that are being expanded make no difference, if the items do not lead to them. -/
theorem Expands.expand_of_not_reached {depth : Nat} {expanding' : List Bytes}
    {items : List (Item × Span)} {fault : Option Error} {stream t : Stream} {registry : Registry}
    {result : Expanded}
    (h : Expands macros depth expanding origin items fault stream registry result)
    (hresult : result.1 = .ok t)
    (hmore : ∀ name, expanding'.contains name = true → expanding.contains name = true ∨
      ∀ other, Names macros items other → ¬ ReflTransGen (DependsOn macros) other name) :
    expand macros expanding' origin items fault stream registry = result := by
  induction h generalizing expanding' t with
  | done => exact expand_nil _ _
  | failed | unknown | recursive | refused | rejected => exact nomatch hresult
  | action _ ih =>
    rw [expand]
    exact ih hresult fun name hname =>
      (hmore name hname).imp id fun hnot other hother => hnot other hother.cons
  | letter hbody _ ih =>
    rw [expand_letter hbody]
    exact ih hresult fun name hname =>
      (hmore name hname).imp id fun hnot other hother => hnot other hother.cons
  | @reference depth expanding origin found body span rest fault stream inner registry registry'
      result hbody hname _ _ ihInner ih =>
    have hfound : Names macros ((.name found, span) :: rest) found :=
      names_cons_iff.mpr (.inl ⟨rfl, body, hbody⟩)
    have hname' : ¬ expanding'.contains found = true := by
      intro hcontains
      rcases hmore found hcontains with hcontains | hnot
      · exact hname hcontains
      · exact hnot found hfound .refl
    rw [expand_reference hbody hname', ihInner rfl ?_]
    · exact ih hresult fun name hname =>
        (hmore name hname).imp id fun hnot other hother => hnot other hother.cons
    · intro name hcontains
      rw [List.contains_cons, Bool.or_eq_true] at hcontains ⊢
      rcases hcontains with heq | hcontains
      · exact .inl (.inl heq)
      · rcases hmore name hcontains with hcontains | hnot
        · exact .inl (.inr hcontains)
        · refine .inr fun other hother hreach => ?_
          exact hnot found hfound (.head ⟨body, hbody, hother⟩ hreach)
  | item haction hname hadd _ ih =>
    rw [expand_item haction hname, hadd]
    exact ih hresult fun name hname =>
      (hmore name hname).imp id fun hnot other hother => hnot other hother.cons

/-- **A body that can be expanded alone can be expanded inside its macro**, with the same result. -/
theorem expand_inside_of_tokenize {name body : Bytes} {t : Stream} {registry last : Registry}
    (hbody : macros.body? name = some body)
    (htokenize : tokenize macros body registry = (.ok t, last)) :
    expand macros [name] none (lex body).items (lex body).error .empty registry = (.ok t, last) := by
  have hexpands : Expands macros (macros.countOutside []) [] none (lex body).items (lex body).error
      .empty registry (.ok t, last) := htokenize ▸ expands_expand (Nat.le_refl _)
  have hacc : Acc (Function.swap (DependsOn macros)) name := by
    refine .intro name fun other hother => ?_
    obtain ⟨body', hbody', hmentions⟩ := hother
    obtain rfl := Option.some.inj (hbody.symm.trans hbody')
    exact hexpands.acc_of_names rfl hmentions
  refine hexpands.expand_of_not_reached rfl fun found hfound => .inr fun other hother hreach => ?_
  obtain rfl : found = name := by simpa using hfound
  -- a way back to the macro would be a circle
  exact not_transGen_of_acc hacc .refl (.head' ⟨body, hbody, hother⟩ hreach)

/-! ## The same tokens -/

/-- A registry holds the action blocks of another one behind those of a first one, and the header of
the first one. -/
structure Behind (first registry registry' : Registry) : Prop where
  toList : registry'.toList = first.toList ++ registry.toList
  header : registry'.header = first.header

namespace Behind

variable {first registry registry' registry'' : Registry}

theorem empty (first : Registry) : Behind first .empty first :=
  ⟨(List.append_nil _).symm, rfl⟩

theorem size_eq (h : Behind first registry registry') :
    registry'.size = first.size + registry.size := by
  have hlength := congrArg List.length h.toList
  rwa [List.length_append] at hlength

theorem add (h : Behind first registry registry') (text : Bytes) :
    Behind first (registry.add text) (registry'.add text) where
  toList := by rw [Registry.toList_add, Registry.toList_add, h.toList, List.append_assoc]
  header := h.header

theorem unique (h : Behind first registry registry') (h' : Behind first registry registry'') :
    registry' = registry'' := by
  obtain ⟨fragments, header⟩ := registry'
  obtain ⟨fragments', header'⟩ := registry''
  have hlist : fragments.toList = fragments'.toList := h.toList.trans h'.toList.symm
  have hheader : header = header' := h.header.trans h'.header.symm
  rw [Array.toList_inj.mp hlist, hheader]

end Behind

/-- Expansion leaves the header of the registry as it is. -/
theorem Expands.header_eq {depth : Nat} {items : List (Item × Span)} {fault : Option Error}
    {stream : Stream} {registry : Registry} {result : Expanded}
    (h : Expands macros depth expanding origin items fault stream registry result) :
    result.2.header = registry.header := by
  induction h with
  | done | failed | unknown | recursive | rejected => rfl
  | action _ ih => exact ih
  | letter _ _ ih | item _ _ _ _ ih => exact ih
  | refused _ _ _ ih => exact ih
  | reference _ _ _ _ ihInner ih => exact ih.trans ihInner

/-- Symbols as they are behind `k` registered action blocks, with registries that are in step. -/
def Substitution.keeping (k : Nat) (R : Registry → Registry → Prop)
    (hsize : ∀ {registry registry'}, R registry registry' → registry'.size = k + registry.size)
    (hadd : ∀ {registry registry'}, R registry registry' → ∀ text,
      R (registry.add text) (registry'.add text)) : Substitution where
  Stands := (Substitution.moved k).Stands
  tree := (Substitution.moved k).tree
  Aligned := R
  forms := (Substitution.moved k).forms
  byte := (Substitution.moved k).byte
  action h span := (Substitution.moved k).action (hsize h) span
  add := hadd

/-- Symbols behind the action blocks of a registry. -/
def Substitution.behind (first : Registry) : Substitution :=
  .keeping first.size (Behind first) Behind.size_eq Behind.add

/-- Symbols as they are, with one and the same registry. -/
def Substitution.same : Substitution :=
  .keeping 0 Eq (by rintro registry _ rfl; exact (Nat.zero_add _).symm) (by rintro _ _ rfl text; rfl)

theorem not_grows_same : ¬ Substitution.same.Grows := by
  rintro ⟨s, term, ⟨x, rfl, -⟩, hne⟩
  exact hne rfl

theorem kinds_of_image {first : Registry} {l r : List Token} (h : Image (.behind first) l r) :
    r.map Token.kind = l.map fun x => x.kind.shift first.size := by
  induction h with
  | nil => rfl
  | @same x y l r hx hy _ ih =>
    have hshift : x.kind.shift first.size = x.kind := by
      cases hkind : x.kind with
      | symbol s => exact absurd hkind (hx s)
      | _ => rfl
    rw [List.map_cons, List.map_cons, ih, hy, hshift]
  | @symbol x s term l r hx hterm _ ih =>
    obtain ⟨y, rfl, hy⟩ := hterm
    rw [List.reverse_singleton, List.singleton_append, List.map_cons, List.map_cons, ih, hy, hx]

theorem image_of_kinds {l r : List Token} (h : r.map Token.kind = l.map Token.kind) :
    Image .same l r := by
  induction l generalizing r with
  | nil =>
    obtain rfl : r = [] := by simpa using h
    exact .nil
  | cons x l ih =>
    cases r with
    | nil => simp at h
    | cons y r =>
      obtain ⟨hy, hrest⟩ := List.cons.inj h
      by_cases hx : ∃ s, x.kind = .symbol s
      · obtain ⟨s, hs⟩ := hx
        have hshift : (TokenKind.symbol s).shift 0 = .symbol s := by
          cases s with
          | byte b => rfl
          | action index => simp [TokenKind.shift]
        have hstands : Substitution.same.Stands s [y] := ⟨y, rfl, by rw [hy, hs, hshift]⟩
        exact .symbol hs hstands (ih hrest)
      · exact .same (not_exists.mp hx) hy (ih hrest)

/-- A group of tokens that are added at once, and the same group with tokens that were added one
after the other. -/
theorem image_group {s inner t t' : Stream} {first : Registry} {before : Nat} {opening : Span}
    (hinner : Image (.behind first) t.tokens inner.tokens)
    (ht : t.Within first.size before (s.emit .opening opening).tokens t') (span closing : Span) :
    Image .same (s.emitGroup inner span).tokens (t'.emit .closing closing).tokens := by
  have hopened : Image .same (s.emit .opening span).tokens (s.emit .opening opening).tokens :=
    (image_of_kinds rfl).emit (by simp) span opening
  have hmoved : Image .same inner.tokens (t.tokens.map (Token.move first.size before)) := by
    refine image_of_kinds ?_
    rw [kinds_of_image hinner, List.map_map]
    rfl
  have hfilled := hmoved.append hopened
  rw [← ht] at hfilled
  exact Image.emit (s := ⟨inner.tokens ++ _, _, _⟩) hfilled (by simp) span closing

/-! ## Patterns -/

/-- What follows a reference is expanded as it is behind the body in parentheses, unless the body is
too large in one of the two places. -/
theorem mirrors_spelledOut {name body : Bytes} {inner rest rest' : List (Item × Span)}
    {alone : Stream} {last : Registry} {fault fault' : Option Error}
    (hbody : macros.body? name = some body) (hlex : lex body = ⟨inner, none⟩)
    (hexpand : expand macros [] none inner none .empty .empty = (.ok alone, last))
    (hinside : expand macros [name] none inner none .empty .empty = (.ok alone, last))
    (hstray : ¬ Stray alone.tokens) (hrest : SameItems rest rest')
    (hfault : fault'.map Error.fault = fault.map Error.fault) (s : Stream) (registry : Registry)
    (span opening closing : Span) (before : Nat) :
    (∃ e last', expand macros [] none ((.name name, span) :: rest) fault s registry =
      (.error e, last') ∧ e.fault = .patternTooLarge) ∨
    (MirrorsExpanded .same (expand macros [] none ((.name name, span) :: rest) fault s registry)
      (expand macros [] none ((.opening, opening) ::
        (inner.map (moveItem before) ++ (.closing, closing) :: rest')) fault' s registry) ∨
      ∃ e last', expand macros [] none ((.opening, opening) ::
        (inner.map (moveItem before) ++ (.closing, closing) :: rest')) fault' s registry =
        (.error e, last') ∧ e.fault = .patternTooLarge) := by
  have hinner : MirrorsExpanded (.behind registry)
      (expand macros [name] none inner none .empty .empty)
      (expand macros [name] (some span) inner none .empty registry) :=
    mirrors_expand _ .nil (Behind.empty registry) (SameItems.refl _) rfl
  rw [hinside] at hinner
  rw [expand_reference hbody (by simp), hlex]
  simp only [Option.getD_none]
  generalize expand macros [name] (some span) inner none .empty registry = result at hinner ⊢
  cases hinner with
  | tooLarge hlarge => exact .inl ⟨_, _, rfl, hlarge⟩
  | @ok _ named _ registry₁ himage hbehind =>
    right
    have hopened : Opened (s.emit .opening opening).tokens := by
      obtain ⟨between, htokens, -⟩ := s.emit_tokens .opening opening
      rw [htokens]
      intro x hx
      rw [← Option.some.inj hx]
    have hitems : List.Forall₂ (MovedItem before none) inner (inner.map (moveItem before)) :=
      List.forall₂_map_right_iff.mpr (List.forall₂_same.mpr fun _ _ => ⟨rfl, rfl⟩)
    have hwithin : ExpandsWithin registry.toList before (s.emit .opening opening).tokens alone last
        (expand macros [] none (inner.map (moveItem before)) none (s.emit .opening opening)
          registry) :=
      expand_within hexpand rfl (List.append_nil _).symm hitems hopened (.inr hstray)
    have hheader : (expand macros [] none (inner.map (moveItem before)) none
        (s.emit .opening opening) registry).2.header = registry.header :=
      (expands_expand (Nat.le_refl _)).header_eq
    rw [expand_item (by simp) (by simp)]
    simp only [addItem, Option.getD_none]
    rw [expand_append]
    generalize expand macros [] none (inner.map (moveItem before)) none (s.emit .opening opening)
      registry = result at hwithin hheader
    cases hwithin with
    | tooLarge hlarge => exact .inr ⟨_, _, rfl, hlarge⟩
    | @same placed registry₂ hplaced htoList =>
      have hsame : registry₁ = registry₂ := hbehind.unique ⟨htoList, hheader⟩
      simp only
      rw [expand_item (by simp) (by simp)]
      exact .inl (mirrors_expand none (image_group himage hplaced span closing) hsame hrest hfault)

/-- Two results of parsing are the same but for the span of the fault. -/
def SameResult (x y : Except Error Tree × Registry) : Prop :=
  y.1.mapError Error.fault = x.1.mapError Error.fault ∧ y.2 = x.2

/-- Streams with the same kinds of tokens have the same tree, or the same fault. -/
theorem sameResult_of_mirrors {x y : Expanded} (h : MirrorsExpanded .same x y)
    (hlinked : ∀ s, x.1 = .ok s → Linked s.tokens) :
    SameResult (treeOfExpanded x) (treeOfExpanded y) := by
  cases h with
  | tooLarge _ hgrows => exact absurd hgrows not_grows_same
  | error hfault hregistry => exact ⟨congrArg Except.error hfault, hregistry.symm⟩
  | @ok s s' registry _ himage hregistry =>
    have hs := hlinked s rfl
    refine ⟨?_, hregistry.symm⟩
    show (treeOfStream s').mapError Error.fault = (treeOfStream s).mapError Error.fault
    cases htree : treeOfStream s with
    | ok t =>
      have himageTree : treeOfStream s' = .ok (t.substitute (Substitution.moved 0).tree) :=
        treeOfStream_image himage hs htree
      rw [himageTree, Tree.substitute_moved_zero]
    | error e =>
      cases htree' : treeOfStream s' with
      | ok t' =>
        obtain ⟨t, ht, -⟩ := exists_treeOfStream_of_image himage hs htree'
        exact nomatch htree.symm.trans ht
      | error e' =>
        refine congrArg Except.error ?_
        rw [fault_of_treeOfStream htree, fault_of_treeOfStream htree', himage.openAfter_eq]

/-- Two results of parsing agree: they are the same tree or the same fault, with the same registry,
unless one of the two patterns is too large. -/
inductive Agree : Except Error Tree × Registry → Except Error Tree × Registry → Prop
  | tree (t : Tree) (registry : Registry) : Agree (.ok t, registry) (.ok t, registry)
  | fault {e e' : Error} (h : e'.fault = e.fault) (registry : Registry) :
    Agree (.error e, registry) (.error e', registry)
  | leftTooLarge {e : Error} {registry : Registry} {result : Except Error Tree × Registry}
    (h : e.fault = .patternTooLarge) : Agree (.error e, registry) result
  | rightTooLarge {e : Error} {registry : Registry} {result : Except Error Tree × Registry}
    (h : e.fault = .patternTooLarge) : Agree result (.error e, registry)

theorem SameResult.agree {x y : Except Error Tree × Registry} (h : SameResult x y) : Agree x y := by
  obtain ⟨result, registry⟩ := x
  obtain ⟨result', registry'⟩ := y
  obtain ⟨hresult, hregistry⟩ := h
  obtain rfl : registry' = registry := hregistry
  cases result with
  | ok t =>
    cases result' with
    | ok t' =>
      obtain rfl : t' = t := Except.ok.inj hresult
      exact .tree t' registry'
    | error e' => exact nomatch hresult
  | error e =>
    cases result' with
    | ok t' => exact nomatch hresult
    | error e' => exact .fault (Except.error.inj hresult) registry'

theorem agree_of_mirrors {x y : Expanded}
    (h : MirrorsExpanded .same x y ∨ ∃ e last, y = (.error e, last) ∧ e.fault = .patternTooLarge)
    (hlinked : ∀ s, x.1 = .ok s → Linked s.tokens) : Agree (treeOfExpanded x) (treeOfExpanded y) := by
  rcases h with hmirrors | ⟨e, last, rfl, hlarge⟩
  · exact (sameResult_of_mirrors hmirrors hlinked).agree
  · exact .rightTooLarge hlarge

/-- **A reference can be spelled out.** Where a text has a reference to a macro whose body has a
tree on its own, the same text with the body in parentheses in the place of the reference has the
same tree or the same fault, and the same action blocks, unless one of the two is too large. -/
theorem parse_spelledOut {pre name post body : Bytes} (registry : Registry)
    (hbody : macros.body? name = some body) (hparses : Parses macros body)
    (hname : (.name name, ⟨pre.length, pre.length + name.length⟩) ∈
      (lex (pre ++ name ++ post)).items) :
    Agree (parse macros (pre ++ name ++ post) registry)
      (parse macros (pre ++ wrap body ++ post) registry) := by
  obtain ⟨tree, hparse⟩ := hparses
  obtain ⟨alone, htokenize, htree⟩ := exists_tokenize_of_parse (Prod.ext hparse rfl)
  obtain ⟨inner, hinner, hexpand⟩ := exists_lexed_of_tokenize htokenize
  have hlex : lex body = ⟨inner, none⟩ := hinner.lex_eq
  have hinside := expand_inside_of_tokenize hbody htokenize
  rw [hlex] at hinside
  have hstray : ¬ Stray alone.tokens := by
    intro hstray
    have hlevel := levelAfter_of_treeOfStream htree
    rw [hstray.levelAfter_eq] at hlevel
    simp at hlevel
  obtain ⟨items, hpre, hnamed⟩ := exists_lexed_of_name hname
  obtain ⟨opening, closing, k, hwrapped⟩ := exists_lex_wrap hpre hinner post
  have hrest : SameItems ((lex post).items.map (moveItem (pre.length + name.length)))
      ((lex post).items.map (moveItem k)) := by
    refine List.forall₂_map_left_iff.mpr (List.forall₂_map_right_iff.mpr ?_)
    exact List.forall₂_same.mpr fun _ _ => rfl
  have hfault : ((lex post).error.map (Error.move k)).map Error.fault =
      ((lex post).error.map (Error.move (pre.length + name.length))).map Error.fault := by
    cases (lex post).error with
    | none => rfl
    | some e => rfl
  rw [parse_eq_treeOfExpanded, parse_eq_treeOfExpanded, tokenize, tokenize, hnamed, hwrapped]
  simp only
  rw [expand_append, expand_append]
  generalize hfront : expand macros [] none items none .empty registry = front
  obtain ⟨result, registry₁⟩ := front
  cases result with
  | error e => exact .fault rfl registry₁
  | ok s =>
    have hempty : Linked Stream.empty.tokens := trivial
    have hs : Linked s.tokens := linked_expand hempty (congrArg Prod.fst hfront)
    rcases mirrors_spelledOut hbody hlex hexpand hinside hstray hrest hfault s registry₁
      ⟨pre.length, pre.length + name.length⟩ opening closing (pre.length + 1) with
      ⟨e, last, herror, hlarge⟩ | hmirrors
    · simp only [herror]
      exact .leftTooLarge hlarge
    · exact agree_of_mirrors hmirrors fun t ht => linked_expand hs ht

/-- A macro `m` with an action block and a choice. -/
def spelledMacros : Macros := [([109], [123, 120, 125, 97, 124, 98])]

/-- The tree of `{x}a|b`, the body of `m`. -/
def choiceTree : Tree := .alternate (.concat (.action 0) (.byte 97)) (.byte 98)

/-- The pattern `c m+ {y}` and the same one with the body of `m` in the place of its name. -/
theorem parse_spelledOut_choice :
    Agree (parse spelledMacros [99, 32, 109, 43, 32, 123, 121, 125] .empty)
      (parse spelledMacros ([99, 32] ++ wrap [123, 120, 125, 97, 124, 98] ++ [43, 32, 123, 121, 125])
        .empty) ∧
    (parse spelledMacros [99, 32, 109, 43, 32, 123, 121, 125] .empty).1 =
      .ok (.concat (.concat (.byte 99) (.concat choiceTree (.closure choiceTree))) (.action 1)) ∧
    (parse spelledMacros [99, 32, 109, 43, 32, 123, 121, 125] .empty).2.toList = [[120], [121]] := by
  have hparses : Parses spelledMacros [123, 120, 125, 97, 124, 98] := ⟨choiceTree, by cbv⟩
  have hitems : (lex [99, 32, 109, 43, 32, 123, 121, 125]).items =
    [(.name [99], ⟨0, 1⟩), (.name [109], ⟨2, 3⟩), (.repetition 1 none, ⟨3, 4⟩),
      (.action [121], ⟨5, 8⟩)] := by cbv
  have hname : (.name [109], ⟨2, 3⟩) ∈ (lex [99, 32, 109, 43, 32, 123, 121, 125]).items := by
    rw [hitems]
    simp
  have hagree : Agree (parse spelledMacros ([99, 32] ++ [109] ++ [43, 32, 123, 121, 125]) .empty)
      (parse spelledMacros ([99, 32] ++ wrap [123, 120, 125, 97, 124, 98] ++ [43, 32, 123, 121, 125])
        .empty) := parse_spelledOut .empty rfl hparses hname
  have hparse : parse spelledMacros [99, 32, 109, 43, 32, 123, 121, 125] .empty =
      (.ok (.concat (.concat (.byte 99) (.concat choiceTree (.closure choiceTree))) (.action 1)),
        ⟨#[[120], [121]], []⟩) := by cbv
  refine ⟨hagree, ?_⟩
  rw [hparse]
  exact ⟨rfl, rfl⟩

end ActionRegex.Pattern
