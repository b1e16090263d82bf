import ActionRegex.Proofs.Pattern.TokenProperties

/-!
# Where faults are marked

Each token has the span of the item it came from, or of the outermost reference, and copies keep
their spans (`Expands.spans`); so whatever the fault of a pattern is, what is marked is a part of
the pattern. `Raised` says at which depth of expansions a fault is found. If a fault is found in the
body of a macro, at whatever depth, the outermost reference is marked (`span_of_parse_error`).
-/

namespace ActionRegex.Pattern

variable {macros : Macros} {expanding : List Bytes} {origin : Option Span}
  {items : List (Item × Span)} {fault : Option Error} {registry : Registry} {P : Span → Prop}

/-! ## Spans of tokens -/

/-- A property of the spans of all tokens. -/
def Spans (P : Span → Prop) (s : Stream) : Prop := ∀ x ∈ s.tokens, P x.span

/-- **Tokens have the spans of items**, or in the body of a macro the span of the outermost
reference. -/
theorem Expands.spans {depth : Nat} {stream t : Stream} {result : Expanded}
    (h : Expands macros depth expanding origin items fault stream registry result)
    (hitems : ∀ entry ∈ items, P (origin.getD entry.2)) (hstream : Spans P stream)
    (hresult : result.1 = .ok t) : Spans P t := by
  have htracked : Tracked fun _ x => P x.span := ⟨fun _ _ hx _ _ => hx, fun _ hx => hx⟩
  exact h.all htracked
    (fun entry hentry => ⟨fun _ _ _ => hitems entry hentry, fun _ => hitems entry hentry⟩) hstream
    hresult

/-- **A fault has the span of an item**, or it is the one that ended the reading. -/
theorem Expands.span_of_error {depth : Nat} {stream : Stream} {result : Expanded} {e : Error}
    (h : Expands macros depth expanding origin items fault stream registry result)
    (hitems : ∀ entry ∈ items, P (origin.getD entry.2)) (hfault : ∀ e, fault = some e → P e.span)
    (hresult : result.1 = .error e) : P e.span := by
  induction h with
  | done => exact nomatch hresult
  | failed => exact Except.error.inj hresult ▸ hfault _ rfl
  | action _ ih | letter _ _ ih | item _ _ _ _ ih =>
    exact ih (List.forall_mem_cons.mp hitems).2 hfault hresult
  | unknown | recursive | refused =>
    exact Except.error.inj hresult ▸ (List.forall_mem_cons.mp hitems).1
  | reference _ _ _ _ _ ih => exact ih (List.forall_mem_cons.mp hitems).2 hfault hresult
  | rejected _ _ hadd =>
    rw [← Except.error.inj hresult, (of_addItem_error hadd).1]
    exact (List.forall_mem_cons.mp hitems).1

/-! ## Where faults are found -/

/-- Expansion finds a fault. The path leads to it: the references, each with its span in the text
that contains it, from the outermost one to the one in whose body the fault is found. -/
inductive Raised (macros : Macros) : List Bytes → Option Span → List (Item × Span) → Option Error →
    Stream → Registry → List Span → Fault → Prop
  | reading {expanding : List Bytes} {origin : Option Span} {e : Error} {stream : Stream}
    {registry : Registry} :
    Raised macros expanding origin [] (some e) stream registry [] e.fault
  | unknown {expanding : List Bytes} {origin : Option Span} {name : Bytes} {span : Span}
    {rest : List (Item × Span)} {fault : Option Error} {stream : Stream} {registry : Registry}
    (hbody : macros.body? name = none) (hname : ∀ b, name ≠ [b]) :
    Raised macros expanding origin ((.name name, span) :: rest) fault stream registry []
      (.unknownMacro name)
  | recursive {expanding : List Bytes} {origin : Option Span} {name body : Bytes} {span : Span}
    {rest : List (Item × Span)} {fault : Option Error} {stream : Stream} {registry : Registry}
    (hbody : macros.body? name = some body) (hname : expanding.contains name = true) :
    Raised macros expanding origin ((.name name, span) :: rest) fault stream registry []
      (.recursiveMacro name)
  | adding {expanding : List Bytes} {origin : Option Span} {item : Item} {span : Span}
    {rest : List (Item × Span)} {fault : Option Error} {stream : Stream} {registry : Registry}
    {e : Error} (haction : ∀ text, item ≠ .action text) (hname : ∀ name, item ≠ .name name)
    (hadd : addItem stream (origin.getD span) item = .error e) :
    Raised macros expanding origin ((item, span) :: rest) fault stream registry [] e.fault
  | inside {expanding : List Bytes} {origin : Option Span} {name body : Bytes} {span : Span}
    {rest : List (Item × Span)} {fault : Option Error} {stream : Stream} {registry : Registry}
    {path : List Span} {found : Fault} (hbody : macros.body? name = some body)
    (hname : ¬ expanding.contains name = true)
    (h : Raised macros (name :: expanding) (some (origin.getD span)) (lex body).items
      (lex body).error .empty registry path found) :
    Raised macros expanding origin ((.name name, span) :: rest) fault stream registry (span :: path)
      found
  | later {expanding : List Bytes} {origin : Option Span} {x : Item × Span}
    {rest : List (Item × Span)} {fault : Option Error} {stream stream' : Stream}
    {registry registry' : Registry} {path : List Span} {found : Fault}
    (hstep : expand macros expanding origin [x] none stream registry = (.ok stream', registry'))
    (h : Raised macros expanding origin rest fault stream' registry' path found) :
    Raised macros expanding origin (x :: rest) fault stream registry path found

/-- What is found is the fault that expansion gives, and the outermost reference on the path to it
is what is marked. -/
theorem Raised.expand_eq {stream : Stream} {path : List Span} {found : Fault}
    (h : Raised macros expanding origin items fault stream registry path found) :
    ∃ e, (expand macros expanding origin items fault stream registry).1 = .error e ∧
      e.fault = found ∧ ∀ outer ∈ path.head?, e.span = origin.getD outer := by
  induction h with
  | @reading expanding origin e stream registry =>
    rw [expand.eq_def]
    exact ⟨e, rfl, rfl, by simp⟩
  | unknown hbody hname =>
    rw [expand_unknown hbody hname]
    exact ⟨_, rfl, rfl, by simp⟩
  | recursive hbody hname =>
    rw [expand_recursive hbody hname]
    exact ⟨_, rfl, rfl, by simp⟩
  | adding haction hname hadd =>
    rw [expand_item haction hname, hadd]
    exact ⟨_, rfl, rfl, by simp⟩
  | @inside expanding origin name body span rest fault stream registry path found hbody hname _ ih =>
    obtain ⟨e, herror, hfound, -⟩ := ih
    rw [expand_reference hbody hname]
    generalize expand macros (name :: expanding) (some (origin.getD span)) (lex body).items
      (lex body).error .empty registry = result at herror
    obtain ⟨result, last⟩ := result
    obtain rfl : result = .error e := herror
    refine ⟨_, rfl, hfound, ?_⟩
    intro outer houter
    rw [← Option.some.inj houter]
  | later hstep _ ih =>
    rw [← List.singleton_append, expand_append, hstep]
    exact ih

/-- Each fault that expansion gives is found somewhere. -/
theorem Expands.exists_raised {depth : Nat} {stream : Stream} {result : Expanded} {e : Error}
    (h : Expands macros depth expanding origin items fault stream registry result)
    (hresult : result.1 = .error e) :
    ∃ path, Raised macros expanding origin items fault stream registry path e.fault := by
  induction h generalizing e with
  | done => exact nomatch hresult
  | failed =>
    obtain rfl := Except.error.inj hresult
    exact ⟨[], .reading⟩
  | action _ ih =>
    obtain ⟨path, hpath⟩ := ih hresult
    refine ⟨path, .later ?_ hpath⟩
    rw [expand, expand_nil]
  | letter hbody _ ih =>
    obtain ⟨path, hpath⟩ := ih hresult
    refine ⟨path, .later ?_ hpath⟩
    rw [expand_letter hbody, expand_nil]
  | unknown hbody hname =>
    obtain rfl := Except.error.inj hresult
    exact ⟨[], .unknown hbody hname⟩
  | recursive hbody hname =>
    obtain rfl := Except.error.inj hresult
    exact ⟨[], .recursive hbody hname⟩
  | refused hbody hname _ ih =>
    obtain rfl := Except.error.inj hresult
    obtain ⟨path, hpath⟩ := ih rfl
    exact ⟨_ :: path, .inside hbody hname hpath⟩
  | reference hbody hname hinner _ _ ih =>
    obtain ⟨path, hpath⟩ := ih hresult
    refine ⟨path, .later ?_ hpath⟩
    rw [expand_reference hbody hname, hinner.expand_eq]
    exact expand_nil _ _
  | rejected haction hname hadd =>
    obtain rfl := Except.error.inj hresult
    exact ⟨[], .adding haction hname hadd⟩
  | item haction hname hadd _ ih =>
    obtain ⟨path, hpath⟩ := ih hresult
    refine ⟨path, .later ?_ hpath⟩
    rw [expand_item haction hname, hadd]
    exact expand_nil _ _

theorem Raised.exists_name {stream : Stream} {outer : Span} {path : List Span} {found : Fault}
    (h : Raised macros expanding origin items fault stream registry (outer :: path) found) :
    ∃ name, Names macros items name ∧ (.name name, outer) ∈ items := by
  generalize hpath : outer :: path = whole at h
  induction h with
  | reading | unknown | recursive | adding => exact nomatch hpath
  | @inside expanding origin name body span rest fault stream registry path' found hbody =>
    obtain ⟨rfl, -⟩ := List.cons.inj hpath
    exact ⟨name, names_cons_iff.mpr (.inl ⟨rfl, body, hbody⟩), List.mem_cons_self⟩
  | later _ _ ih =>
    obtain ⟨name, hname, hmem⟩ := ih hpath
    exact ⟨name, hname.cons, List.mem_cons_of_mem _ hmem⟩

/-- A fault that the expansion of a pattern finds, with the path to it. -/
def RaisedBy (macros : Macros) (pattern : Bytes) (registry : Registry) (path : List Span)
    (found : Fault) : Prop :=
  Raised macros [] none (lex pattern).items (lex pattern).error .empty registry path found

/-- A span is a part of a text, of one byte at least. -/
def Marks (text : Bytes) (span : Span) : Prop := span.start < span.stop ∧ span.stop ≤ text.length

/-- **What is marked is a part of the pattern**, of one byte at least. The fault is found by
expansion or in the tokens, and if it is found in the body of a macro, at any depth, exactly the
outermost reference is marked. -/
theorem span_of_parse_error {pattern : Bytes} {registry last : Registry} {e : Error}
    (h : parse macros pattern registry = (.error e, last)) :
    Marks pattern e.span ∧
    (∀ outer inner found, RaisedBy macros pattern registry (outer :: inner) found →
      e = ⟨found, outer⟩ ∧ ∃ name, Mentions macros pattern name ∧
        (.name name, outer) ∈ (lex pattern).items) ∧
    ((∃ path, RaisedBy macros pattern registry path e.fault) ∨
      ∃ s, tokenize macros pattern registry = (.ok s, last) ∧ treeOfStream s = .error e) := by
  have hitems : ∀ entry ∈ (lex pattern).items, Marks pattern (Option.getD none entry.2) :=
    fun entry hentry => span_of_mem_lex hentry
  have hexpands : Expands macros (macros.countOutside []) [] none (lex pattern).items
      (lex pattern).error .empty registry (tokenize macros pattern registry) :=
    expands_expand (Nat.le_refl _)
  have hcases := tokenize_or_of_parse_error h
  refine ⟨?_, ?_, ?_⟩
  · rcases hcases with htokenize | ⟨s, htokenize, htree⟩
    · exact hexpands.span_of_error (P := Marks pattern) hitems (fun e he => (span_of_error_lex he).2)
        (congrArg Prod.fst htokenize)
    · have hempty : Spans (Marks pattern) Stream.empty := fun x hx => absurd hx List.not_mem_nil
      have hspans := hexpands.spans hitems hempty (congrArg Prod.fst htokenize)
      obtain ⟨x, hx, hspan⟩ := span_of_treeOfStream htree
      rw [hspan]
      exact hspans x hx
  · intro outer inner found hraised
    obtain ⟨e', herror, hfound, hspan⟩ := hraised.expand_eq
    rcases hcases with htokenize | ⟨s, htokenize, -⟩
    · have heq : e = e' := Except.error.inj ((congrArg Prod.fst htokenize).symm.trans herror)
      have houter : e.span = outer := heq ▸ hspan outer rfl
      refine ⟨?_, hraised.exists_name⟩
      rw [← hfound, ← heq, ← houter]
    · exact nomatch (congrArg Prod.fst htokenize).symm.trans herror
  · rcases hcases with htokenize | htree
    · exact .inl (hexpands.exists_raised (congrArg Prod.fst htokenize))
    · exact .inr htree

/-- A macro `m` whose body is a macro `n`, whose body repeats a letter at least two times and at
most once. -/
def invalidMacros : Macros := [([109], [110]), ([110], [97, 123, 50, 44, 49, 125])]

theorem span_of_parse_error_nested :
    parse invalidMacros [98, 32, 109] .empty = (.error ⟨.invalidRepetition, ⟨2, 3⟩⟩, .empty) ∧
    RaisedBy invalidMacros [98, 32, 109] .empty [⟨2, 3⟩, ⟨0, 1⟩] .invalidRepetition ∧
    Marks [98, 32, 109] ⟨2, 3⟩ ∧ ∃ name, Mentions invalidMacros [98, 32, 109] name ∧
      (.name name, ⟨2, 3⟩) ∈ (lex [98, 32, 109]).items := by
  have hb : lex [98, 32, 109] = ⟨[(.name [98], ⟨0, 1⟩), (.name [109], ⟨2, 3⟩)], none⟩ :=
    Lexed.lex_eq <| .item rfl <| .blank rfl <| .item rfl <| .ended _
  have hm : lex [110] = ⟨[(.name [110], ⟨0, 1⟩)], none⟩ :=
    Lexed.lex_eq <| .item rfl <| .ended _
  have hn : lex [97, 123, 50, 44, 49, 125] =
      ⟨[(.name [97], ⟨0, 1⟩), (.repetition 2 (some 1), ⟨1, 6⟩)], none⟩ :=
    Lexed.lex_eq <| .item rfl <| .item rfl <| .ended _
  have hparse : parse invalidMacros [98, 32, 109] .empty =
      (.error ⟨.invalidRepetition, ⟨2, 3⟩⟩, .empty) := by
    rw [parse, tokenize, hb, expand_letter rfl, expand_reference rfl (by decide), hm,
      expand_reference rfl (by decide), hn]
    cbv
  have hraised :
      RaisedBy invalidMacros [98, 32, 109] .empty [⟨2, 3⟩, ⟨0, 1⟩] .invalidRepetition := by
    rw [RaisedBy, hb]
    refine .later (by rw [expand_letter rfl, expand_nil]) (.inside rfl (by decide) ?_)
    rw [hm]
    refine .inside rfl (by decide) ?_
    rw [hn]
    refine .later (by rw [expand_letter rfl, expand_nil]) ?_
    exact .adding (e := ⟨.invalidRepetition, ⟨2, 3⟩⟩) (by simp) (by simp) (by rfl)
  obtain ⟨hmarks, hinside, -⟩ := span_of_parse_error hparse
  exact ⟨hparse, hraised, hmarks, (hinside _ _ _ hraised).2⟩

end ActionRegex.Pattern
