import ActionRegex.Proofs.Pattern.Within.Streams

/-!
# Expansion inside a longer pattern

The items of a pattern in parentheses are expanded as they are alone (`expand_within`): the tokens
stand behind other tokens, and the action blocks are registered behind other blocks. Macros are
expanded in the same way, since their bodies are read on their own.
-/

namespace ActionRegex.Pattern

variable {macros : Macros} {expanding : List Bytes} {origin : Option Span}

/-! ## Parts of a pattern -/

theorem expand_nil (stream : Stream) (registry : Registry) :
    expand macros expanding origin [] none stream registry = (.ok stream, registry) := by
  rw [expand.eq_def]

/-- An item that is neither an action block nor a name. -/
theorem expand_item {item : Item} (haction : ∀ text, item ≠ .action text)
    (hname : ∀ text, item ≠ .name text) (span : Span) (rest : List (Item × Span))
    (fault : Option Error) (stream : Stream) (registry : Registry) :
    expand macros expanding origin ((item, span) :: rest) fault stream registry =
      match addItem stream (origin.getD span) item with
      | .error e => (.error e, registry)
      | .ok stream => expand macros expanding origin rest fault stream registry := by
  cases item with
  | action text => exact absurd rfl (haction text)
  | name text => exact absurd rfl (hname text)
  | _ => exact expand.eq_def macros expanding origin _ fault stream registry

/-- A single letter that is no macro. -/
theorem expand_letter {b : UInt8} (hbody : macros.body? [b] = none) (span : Span)
    (rest : List (Item × Span)) (fault : Option Error) (stream : Stream) (registry : Registry) :
    expand macros expanding origin ((.name [b], span) :: rest) fault stream registry =
      expand macros expanding origin rest fault (stream.emitByte (origin.getD span) b) registry := by
  rw [expand]
  split
  · rfl
  · next body hsome => exact absurd (hbody.symm.trans hsome) (by simp)

/-- Another name that is no macro. -/
theorem expand_unknown {name : Bytes} (hbody : macros.body? name = none) (hname : ∀ b, name ≠ [b])
    (span : Span) (rest : List (Item × Span)) (fault : Option Error) (stream : Stream)
    (registry : Registry) :
    expand macros expanding origin ((.name name, span) :: rest) fault stream registry =
      (.error ⟨.unknownMacro name, origin.getD span⟩, registry) := by
  rw [expand]
  split
  · cases name with
    | nil => rfl
    | cons b more =>
      cases more with
      | nil => exact absurd rfl (hname b)
      | cons => rfl
  · next body hsome => exact absurd (hbody.symm.trans hsome) (by simp)

/-- A macro that is being expanded. -/
theorem expand_recursive {name body : Bytes} (hbody : macros.body? name = some body)
    (hname : expanding.contains name = true) (span : Span) (rest : List (Item × Span))
    (fault : Option Error) (stream : Stream) (registry : Registry) :
    expand macros expanding origin ((.name name, span) :: rest) fault stream registry =
      (.error ⟨.recursiveMacro name, origin.getD span⟩, registry) := by
  rw [expand]
  split
  · next hnone => exact absurd (hbody.symm.trans hnone) (by simp)
  · rw [dif_pos hname]

/-- A macro whose body is expanded. -/
theorem expand_reference {name body : Bytes} (hbody : macros.body? name = some body)
    (hname : ¬ expanding.contains name = true) (span : Span) (rest : List (Item × Span))
    (fault : Option Error) (stream : Stream) (registry : Registry) :
    expand macros expanding origin ((.name name, span) :: rest) fault stream registry =
      match expand macros (name :: expanding) (some (origin.getD span)) (lex body).items
        (lex body).error .empty registry with
      | (.error e, registry) => (.error ⟨e.fault, origin.getD span⟩, registry)
      | (.ok inner, registry) =>
        expand macros expanding origin rest fault (stream.emitGroup inner (origin.getD span))
          registry := by
  rw [expand]
  split
  · next hnone => exact absurd (hbody.symm.trans hnone) (by simp)
  · next body' hsome =>
    obtain rfl := Option.some.inj (hbody.symm.trans hsome)
    exact (dif_neg hname).trans rfl

/-- The items of a part and then the others. -/
theorem expand_append (items rest : List (Item × Span)) (fault : Option Error) (stream : Stream)
    (registry : Registry) :
    expand macros expanding origin (items ++ rest) fault stream registry =
      match expand macros expanding origin items none stream registry with
      | (.error e, registry) => (.error e, registry)
      | (.ok stream, registry) => expand macros expanding origin rest fault stream registry := by
  induction items generalizing stream registry with
  | nil =>
    rw [expand.eq_def macros expanding origin []]
    rfl
  | cons entry items ih =>
    obtain ⟨item, span⟩ := entry
    rw [List.cons_append]
    by_cases haction : ∃ text, item = .action text
    · obtain ⟨text, rfl⟩ := haction
      rw [expand, expand]
      exact ih _ _
    · by_cases hname : ∃ text, item = .name text
      · obtain ⟨name, rfl⟩ := hname
        rw [expand, expand]
        split
        · cases name with
          | nil => rfl
          | cons b more =>
            cases more with
            | nil => exact ih _ _
            | cons c more => rfl
        · split
          · rfl
          · dsimp only
            split
            · rfl
            · exact ih _ _
      · have haction := not_exists.mp haction
        have hname := not_exists.mp hname
        rw [expand_item haction hname, expand_item haction hname]
        split
        · rfl
        · exact ih _ _

/-! ## Streams that close a parenthesis first -/

/-- The first token closes a parenthesis. Tokens come latest first. -/
def Stray (tokens : List Token) : Prop := ∃ x ∈ tokens.getLast?, x.kind = .closing

theorem Stray.of_suffix {l r : List Token} (h : Stray l) (hsuffix : l <:+ r) : Stray r := by
  obtain ⟨x, hx, hkind⟩ := h
  obtain ⟨front, rfl⟩ := hsuffix
  refine ⟨x, ?_, hkind⟩
  rw [Option.mem_def] at hx ⊢
  rw [List.getLast?_append, hx]
  rfl

/-- A stream that closes a parenthesis first has its parentheses not in pairs. -/
theorem Stray.levelAfter_eq {tokens : List Token} (h : Stray tokens) :
    levelAfter 0 tokens.reverse = none := by
  obtain ⟨x, hx, hkind⟩ := h
  rw [Option.mem_def, ← List.head?_reverse] at hx
  obtain ⟨rest, hrest⟩ := List.head?_eq_some_iff.mp hx
  rw [hrest, levelAfter, hkind]
  rfl

namespace Stream

variable {s t : Stream}

theorem suffix_foldl {α : Type} {f : Stream → α → Stream}
    (hf : ∀ s a, s.tokens <:+ (f s a).tokens) (s : Stream) (l : List α) :
    s.tokens <:+ (l.foldl f s).tokens := by
  induction l generalizing s with
  | nil => exact List.suffix_rfl
  | cons a l ih => exact (hf s a).trans (ih _)

theorem suffix_emitBytes (s : Stream) (span : Span) (bytes : Bytes) :
    s.tokens <:+ (s.emitBytes span bytes).tokens := by
  unfold emitBytes
  split
  · exact s.suffix_emit _ span
  · exact s.suffix_emit _ span
  · exact ((s.suffix_emit _ span).trans
      (suffix_foldl (fun s b => s.suffix_emit _ span) _ _)).trans (suffix_emit _ _ span)

theorem suffix_emitSet (s : Stream) (span : Span) (set : ByteSet) :
    s.tokens <:+ (s.emitSet span set).tokens := by
  unfold emitSet
  split
  · exact List.suffix_rfl
  · exact s.suffix_emit _ span
  · refine ((s.suffix_emit .opening span).trans (suffix_emit _ _ span)).trans
      ((suffix_foldl (fun s b => ?_) _ _).trans (suffix_emit _ _ span))
    exact (s.suffix_emit .alternation span).trans (suffix_emit _ _ span)

theorem suffix_emitGroup (s inner : Stream) (span : Span) :
    s.tokens <:+ (s.emitGroup inner span).tokens := by
  refine List.IsSuffix.trans ?_ (suffix_emit _ .closing span)
  exact (s.suffix_emit .opening span).trans (List.suffix_append inner.tokens _)

/-- The last term never starts with a closing parenthesis. -/
theorem stray_dropLast (h : Stray s.tokens) {n : Nat} (hlength : termLength s.tokens = some n) :
    Stray (s.dropLast n).tokens := by
  obtain ⟨x, rest, base, htokens, rfl, hx, -, -⟩ := exists_term_of_termLength hlength
  have hbase : (s.dropLast (rest.length + 1)).tokens = base := tokens_dropLast htokens
  obtain ⟨y, hy, hkind⟩ := h
  rw [Option.mem_def, htokens, List.getLast?_append] at hy
  cases hlast : base.getLast? with
  | none =>
    rw [hlast, List.getLast?_reverse] at hy
    obtain rfl : x = y := by simpa using hy
    simp [hkind, TokenKind.startsTerm] at hx
  | some z =>
    rw [hlast] at hy
    obtain rfl : z = y := by simpa using hy
    exact ⟨z, by rw [hbase]; exact hlast, hkind⟩

/-- A repetition never takes a closing parenthesis at the start for a part of the term. -/
theorem stray_repeatTerm (h : Stray s.tokens) {min : Nat} {max : Option Nat} {span : Span}
    (hok : s.repeatTerm min max span = .ok t) : Stray t.tokens := by
  obtain ⟨-, length, hlength, hto⟩ := exists_repeatsTo hok
  have hdrop := stray_dropLast h hlength
  cases hto with
  | once => exact h
  | closure => exact h.of_suffix (s.suffix_emit _ span)
  | removed => exact hdrop.of_suffix (suffix_emit _ _ span)
  | written =>
    have hwritten := Written.emitRepeated (s.lastTokens length) min max span
      ((s.dropLast length).emit .opening span)
    exact hdrop.of_suffix (((suffix_emit _ _ span).trans hwritten.suffix).trans
      (suffix_emit _ _ span))

end Stream

theorem stray_emit_closing {s : Stream} (hs : s.tokens = []) (span : Span) :
    Stray (s.emit .closing span).tokens := by
  have hfollows : Follows .closing s.tokens := by
    rw [hs]
    exact ⟨fun _ => rfl, by simp⟩
  rw [Stream.emit_of_follows hfollows, hs]
  exact ⟨_, rfl, rfl⟩

theorem stray_addItem {s t : Stream} (h : Stray s.tokens) {item : Item} {span : Span}
    (hok : addItem s span item = .ok t) : Stray t.tokens := by
  cases item with
  | repetition min max => exact Stream.stray_repeatTerm h hok
  | oneOf set => exact Except.ok.inj hok ▸ h.of_suffix (s.suffix_emitSet span set)
  | quoted bytes => exact Except.ok.inj hok ▸ h.of_suffix (s.suffix_emitBytes span bytes)
  | action | name => exact Except.ok.inj hok ▸ h
  | _ => exact Except.ok.inj hok ▸ h.of_suffix (s.suffix_emit _ span)

/-- **A closing parenthesis at the start stays there.** -/
theorem stray_expand {items : List (Item × Span)} {fault : Option Error} {stream t : Stream}
    {registry : Registry} (h : Stray stream.tokens)
    (hok : (expand macros expanding origin items fault stream registry).1 = .ok t) :
    Stray t.tokens := by
  fun_induction expand macros expanding origin items fault stream registry with
  | case1 expanding origin fault stream registry =>
    cases fault with
    | none => exact Except.ok.inj hok ▸ h
    | some e => simp at hok
  | case2 => next ih => exact ih (h.of_suffix (Stream.suffix_emit _ _ _)) hok
  | case3 => next ih => exact ih (h.of_suffix (Stream.suffix_emit _ _ _)) hok
  | case4 => simp at hok
  | case5 => simp at hok
  | case6 => simp at hok
  | case7 => next ih => exact ih (h.of_suffix (Stream.suffix_emitGroup _ _ _)) hok
  | case8 => simp at hok
  | case9 => next hadd ih => exact ih (stray_addItem h hadd) hok

/-! ## Expansion behind other tokens -/

/-- An item of a pattern and the same item inside a longer one. Inside a macro only the span of the
reference counts. -/
def MovedItem (before : Nat) (origin : Option Span) (x y : Item × Span) : Prop :=
  y.1 = x.1 ∧ (origin.map (Span.move before)).getD y.2 = (origin.getD x.2).move before

/-- What becomes of an expansion inside a longer pattern: the same tokens and action blocks behind
others, unless it is too large. -/
inductive ExpandsWithin (prior : List Bytes) (before : Nat) (base : List Token) (t : Stream)
    (registry : Registry) : Expanded → Prop
  | tooLarge {e : Error} {registry' : Registry} (h : e.fault = .patternTooLarge) :
    ExpandsWithin prior before base t registry (.error e, registry')
  | same {t' : Stream} {registry' : Registry} (ht : t.Within prior.length before base t')
    (hregistry : registry'.toList = prior ++ registry.toList) :
    ExpandsWithin prior before base t registry (.ok t', registry')

/-- **A pattern is expanded in the same way inside a longer one**, unless it is too large there. It
must not close the parenthesis before it. -/
theorem expand_within {prior : List Bytes} {before : Nat} {base : List Token}
    {items items' : List (Item × Span)} {fault : Option Error} {s s' t : Stream}
    {registry registry' last : Registry}
    (hexpand : expand macros expanding origin items fault s registry = (.ok t, last))
    (hs : s.Within prior.length before base s')
    (hregistry : registry'.toList = prior ++ registry.toList)
    (hitems : List.Forall₂ (MovedItem before origin) items items') (hbase : Opened base)
    (hstray : base = [] ∨ ¬ Stray t.tokens) :
    ExpandsWithin prior before base t last
      (expand macros expanding (origin.map (Span.move before)) items' fault s' registry') := by
  fun_induction expand macros expanding origin items fault s registry
    generalizing base items' s' registry' t last with
  | case1 expanding origin fault stream registry =>
    cases hitems
    cases fault with
    | none =>
      obtain ⟨rfl, rfl⟩ : stream = t ∧ registry = last := by simpa using hexpand
      rw [expand.eq_def]
      exact .same hs hregistry
    | some e => simp at hexpand
  | case2 expanding origin fault stream registry itemSpan rest span text =>
    next ih =>
    obtain ⟨⟨_, span'⟩, rest', ⟨rfl, hspan⟩, hrest, rfl⟩ := List.forall₂_cons_left_iff.mp hitems
    have hsize : registry'.size = prior.length + registry.size := by
      have hlength := congrArg List.length hregistry
      rwa [List.length_append] at hlength
    have hemit := (hs.emit_inside hbase
      (show TokenKind.symbol (.action registry.size) ≠ .closing by simp)
      (origin.getD itemSpan)).within
    rw [expand, hspan, hsize]
    refine ih hexpand hemit ?_ hrest hbase hstray
    rw [Registry.toList_add, Registry.toList_add, hregistry, List.append_assoc]
  | case3 expanding origin fault stream registry itemSpan rest span b hbody =>
    next ih =>
    obtain ⟨⟨_, span'⟩, rest', ⟨rfl, hspan⟩, hrest, rfl⟩ := List.forall₂_cons_left_iff.mp hitems
    have hemit := (hs.emit_inside hbase
      (show TokenKind.symbol (.byte b) ≠ .closing by simp) (origin.getD itemSpan)).within
    rw [expand_letter hbody, hspan]
    exact ih hexpand hemit hregistry hrest hbase hstray
  | case4 => simp at hexpand
  | case5 => simp at hexpand
  | case6 => simp at hexpand
  | case7 expanding origin fault stream registry itemSpan rest span name body hbody hname reading
      inner registry₁ hinner =>
    next ihInner ih =>
    obtain ⟨⟨_, span'⟩, rest', ⟨rfl, hspan⟩, hrest, rfl⟩ := List.forall₂_cons_left_iff.mp hitems
    -- in the body of the macro nothing stands before the tokens
    have hsame : List.Forall₂ (MovedItem before (some (origin.getD itemSpan))) (lex body).items
        (lex body).items := List.forall₂_same.mpr fun entry _ => ⟨rfl, rfl⟩
    have hbodyWithin := ihInner hinner (show Stream.Within _ before [] .empty .empty from rfl)
      hregistry hsame (by simp [Opened]) (.inl rfl)
    rw [expand_reference hbody hname, hspan]
    generalize hresult : expand macros (name :: expanding)
      (some ((origin.getD itemSpan).move before)) (lex body).items (lex body).error .empty
      registry' = result
    replace hbodyWithin : ExpandsWithin prior before [] inner registry₁ result :=
      hresult ▸ hbodyWithin
    cases hbodyWithin with
    | tooLarge hlarge => exact .tooLarge hlarge
    | same ht hregistry' =>
      exact ih hexpand (hs.emitGroup hbase ht _) hregistry' hrest hbase hstray
  | case8 => simp at hexpand
  | case9 expanding origin fault stream registry itemSpan rest span item haction hname added hadd =>
    next ih =>
    obtain ⟨⟨item', span'⟩, rest', ⟨hitem, hspan⟩, hrest, rfl⟩ :=
      List.forall₂_cons_left_iff.mp hitems
    obtain rfl : item = item' := hitem.symm
    have hclosing : item = .closing → stream.tokens = [] → base = [] := by
      rintro rfl hnil
      refine hstray.resolve_right fun hnot => hnot (stray_expand ?_ (congrArg Prod.fst hexpand))
      obtain rfl := Except.ok.inj hadd
      exact stray_emit_closing hnil _
    rw [expand_item haction hname, hspan]
    rcases addItem_within hs hbase hclosing hadd with ⟨e, herror, hlarge⟩ | ⟨next', hok, hnext⟩
    · rw [herror]
      exact .tooLarge hlarge
    · rw [hok]
      exact ih hexpand hnext hregistry hrest hbase hstray

end ActionRegex.Pattern
