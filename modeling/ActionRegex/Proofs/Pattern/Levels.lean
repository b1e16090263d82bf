import ActionRegex.Proofs.Pattern.Recursion
import ActionRegex.Proofs.Pattern.References

/-!
# Levels of parentheses

How many parentheses are open behind items can be counted in the items alone, if the macros that the
items lead to have their own parentheses in pairs (`PairedMacros`). No repetition changes that
number, whatever its bounds are (`Expands.counts`). As long as no item closes more parentheses than
the items before it have opened, the last term never reaches back behind the first item, so items
that are refused at the start of a pattern are refused behind a parenthesis as well
(`exists_error_within`).
-/

namespace ActionRegex.Pattern

open Relation (ReflTransGen)

variable {macros : Macros} {depth : Nat} {expanding : List Bytes} {origin : Option Span}
  {items : List (Item × Span)} {fault : Option Error} {s t : Stream} {registry : Registry}
  {result : Expanded}

/-! ## Levels of items -/

theorem itemLevel_append (level : Nat) (l r : List (Item × Span)) :
    itemLevel level (l ++ r) = (itemLevel level l).bind fun level => itemLevel level r := by
  induction l generalizing level with
  | nil => rfl
  | cons x l ih =>
    rw [List.cons_append, itemLevel, itemLevel, Option.bind_assoc]
    exact Option.bind_congr fun level _ => ih level

theorem itemLevel_map_moveItem (before level : Nat) (items : List (Item × Span)) :
    itemLevel level (items.map (moveItem before)) = itemLevel level items := by
  induction items generalizing level with
  | nil => rfl
  | cons x items ih =>
    rw [List.map_cons, moveItem, itemLevel, itemLevel]
    exact Option.bind_congr fun level _ => ih level

theorem stepItem_add {level next : Nat} {item : Item} (h : stepItem level item = some next)
    (k : Nat) : stepItem (level + k) item = some (next + k) := by
  cases item with
  | opening =>
    obtain rfl := Option.some.inj h
    simp only [stepItem, Option.some.injEq]
    omega
  | closing =>
    rw [stepItem] at h
    split at h
    · simp at h
    · obtain rfl := Option.some.inj h
      rw [stepItem, if_neg (by omega)]
      congr 1
      omega
  | _ =>
    obtain rfl := Option.some.inj h
    rfl

/-- Items that close no more than they open do the same at every level. -/
theorem itemLevel_add {level last : Nat} (h : itemLevel level items = some last) (k : Nat) :
    itemLevel (level + k) items = some (last + k) := by
  induction items generalizing level with
  | nil =>
    obtain rfl := Option.some.inj h
    rfl
  | cons x items ih =>
    rw [itemLevel] at h
    obtain ⟨next, hstep, hrest⟩ := Option.bind_eq_some_iff.mp h
    rw [itemLevel, stepItem_add hstep]
    exact ih hrest

/-- Items that close nothing never lead to a lower level. -/
theorem exists_itemLevel_of_not_closing (h : ∀ x ∈ items, x.1 ≠ .closing) (level : Nat) :
    ∃ last, itemLevel level items = some last ∧ level ≤ last := by
  induction items generalizing level with
  | nil => exact ⟨level, rfl, Nat.le_refl level⟩
  | cons x items ih =>
    obtain ⟨item, span⟩ := x
    have hitem : ∃ next, stepItem level item = some next ∧ level ≤ next := by
      cases item with
      | opening => exact ⟨level + 1, rfl, Nat.le_succ level⟩
      | closing => exact absurd rfl (h _ List.mem_cons_self)
      | _ => exact ⟨level, rfl, Nat.le_refl level⟩
    obtain ⟨next, hstep, hle⟩ := hitem
    obtain ⟨last, hlast, hle'⟩ := ih (fun y hy => h y (List.mem_cons_of_mem _ hy)) next
    refine ⟨last, ?_, hle.trans hle'⟩
    rw [itemLevel, hstep]
    exact hlast

/-! ## Macros with their parentheses in pairs -/

/-- The macros that items lead to, directly or through the bodies of others, have their parentheses
in pairs. -/
def PairedMacros (macros : Macros) (items : List (Item × Span)) : Prop :=
  ∀ name other body, Names macros items name → ReflTransGen (DependsOn macros) name other →
    macros.body? other = some body → Paired body

namespace PairedMacros

theorem of_append_left {items' : List (Item × Span)} (h : PairedMacros macros (items ++ items')) :
    PairedMacros macros items :=
  fun name other body ⟨hbody, span, hmem⟩ =>
    h name other body ⟨hbody, span, List.mem_append_left items' hmem⟩

theorem tail {x : Item × Span} (h : PairedMacros macros (x :: items)) : PairedMacros macros items :=
  fun name other body hname => h name other body hname.cons

variable {name body : Bytes} {span : Span}

theorem paired (h : PairedMacros macros ((.name name, span) :: items))
    (hbody : macros.body? name = some body) : Paired body :=
  h name name body ⟨⟨body, hbody⟩, span, List.mem_cons_self⟩ .refl hbody

theorem inside (h : PairedMacros macros ((.name name, span) :: items))
    (hbody : macros.body? name = some body) : PairedMacros macros (lex body).items := by
  intro other last lastBody hother hreach hlast
  have hdepends : DependsOn macros name other := ⟨body, hbody, hother⟩
  exact h name last lastBody ⟨⟨body, hbody⟩, span, List.mem_cons_self⟩ (.head hdepends hreach) hlast

end PairedMacros

/-! ## Levels of streams -/

/-- What items make of a chained stream: it stays chained, and the parentheses among the items are
counted. -/
structure Counts (items : List (Item × Span)) (tokens tokens' : List Token) : Prop where
  chained : Chained tokens'
  openAfter_eq : openAfter tokens' = (openAfter tokens).bind fun level => itemLevel level items

theorem Advances.counts {tokens tokens' : List Token} (h : Advances items tokens tokens') :
    Counts items tokens tokens' :=
  ⟨h.chained, h.openAfter_eq⟩

namespace Counts

variable {x : Item × Span} {tokens tokens₁ tokens' : List Token}

theorem bind_itemLevel (h : Counts [x] tokens tokens₁) (items : List (Item × Span)) :
    ((openAfter tokens₁).bind fun level => itemLevel level items) =
      (openAfter tokens).bind fun level => itemLevel level (x :: items) := by
  rw [h.openAfter_eq, Option.bind_assoc, ← List.singleton_append]
  exact Option.bind_congr fun level _ => (itemLevel_append level [x] items).symm

theorem cons (h : Counts [x] tokens tokens₁) (h' : Counts items tokens₁ tokens') :
    Counts (x :: items) tokens tokens' :=
  ⟨h'.chained, h'.openAfter_eq.trans (h.bind_itemLevel items)⟩

end Counts

namespace Stream

/-- A repetition with the upper bound zero puts the empty text in the place of the last term. -/
theorem exists_of_repeatTerm_zero {min : Nat} {span : Span}
    (h : s.repeatTerm min (some 0) span = .ok t) :
    ∃ n, termLength s.tokens = some n ∧ t = (s.dropLast n).emit .empty span := by
  obtain ⟨-, n, hlength, hto⟩ := exists_repeatsTo h
  refine ⟨n, hlength, ?_⟩
  cases hto with
  | once _ hmax => exact absurd hmax (by decide)
  | closure _ hmax => exact absurd hmax (by decide)
  | removed => rfl
  | written hcopies => exact absurd rfl hcopies.not_zero

theorem counts_repeatTerm_zero (hs : Chained s.tokens) {min : Nat} {span : Span}
    (h : s.repeatTerm min (some 0) span = .ok t) (span' : Span) :
    Counts [(.repetition min (some 0), span')] s.tokens t.tokens := by
  obtain ⟨n, hlength, rfl⟩ := exists_of_repeatTerm_zero h
  obtain ⟨x, rest, base, htokens, rfl, -, hbalanced, -⟩ := exists_term_of_termLength hlength
  have hbase : (s.dropLast (rest.length + 1)).tokens = base := tokens_dropLast htokens
  have hchained : Chained (s.dropLast (rest.length + 1)).tokens := by
    rw [htokens] at hs
    rw [hbase]
    exact hs.of_append_right
  refine ⟨chained_emit hchained .empty span, ?_⟩
  rw [openAfter_emit, hbase, htokens, hbalanced.openAfter_reverse_append]
  rfl

end Stream

/-- Every item but a name is counted, a repetition with any bounds included. -/
theorem counts_addItem {item : Item} (hs : Chained s.tokens) (span : Span) {span' : Span}
    (hadd : addItem s span' item = .ok t) : Counts [(item, span)] s.tokens t.tokens := by
  by_cases hzero : ∃ min, item = .repetition min (some 0)
  · obtain ⟨min, rfl⟩ := hzero
    exact Stream.counts_repeatTerm_zero hs hadd span
  · exact (advances_addItem hs (fun min hitem => hzero ⟨min, hitem⟩) span span' hadd).counts

/-- A macro with its parentheses in pairs is counted as one item. -/
theorem counts_emitGroup {inner : Stream} {name body : Bytes} (hs : Chained s.tokens)
    (hinner : Counts (lex body).items Stream.empty.tokens inner.tokens) (hpaired : Paired body)
    (span span' : Span) :
    Counts [(.name name, span)] s.tokens (s.emitGroup inner span').tokens := by
  have hopen : openAfter inner.tokens = some 0 := hinner.openAfter_eq.trans hpaired
  exact (Reference.advances ⟨name, body, span', s, inner⟩ hs hinner.chained hopen name span).counts

/-- **The parentheses of a stream are those of the items**, if the macros have theirs in pairs. -/
theorem Expands.counts
    (h : Expands macros depth expanding origin items fault s registry result)
    (hresult : result.1 = .ok t) (hmacros : PairedMacros macros items) (hs : Chained s.tokens) :
    Counts items s.tokens t.tokens := by
  induction h generalizing t with
  | done =>
    obtain rfl := Except.ok.inj hresult
    exact ⟨hs, (Option.bind_fun_some _).symm⟩
  | failed | unknown | recursive | refused | rejected => exact nomatch hresult
  | @action depth expanding origin text span rest fault s registry result _ ih =>
    have hstep : Counts [(.action text, span)] s.tokens
        (s.emit (.symbol (.action registry.size)) (origin.getD span)).tokens :=
      (Advances.of_emit hs (fun _ => rfl) span _).counts
    exact hstep.cons (ih hresult hmacros.tail hstep.chained)
  | @letter depth expanding origin b span rest fault s registry result hbody _ ih =>
    have hstep : Counts [(.name [b], span)] s.tokens (s.emitByte (origin.getD span) b).tokens :=
      (Advances.of_emit hs (fun _ => rfl) span _).counts
    exact hstep.cons (ih hresult hmacros.tail hstep.chained)
  | @reference depth expanding origin name body span rest fault s inner registry registry' result
      hbody _ _ _ ihInner ih =>
    have hinner : Counts (lex body).items Stream.empty.tokens inner.tokens :=
      ihInner rfl (hmacros.inside hbody) trivial
    have hstep : Counts [(.name name, span)] s.tokens
        (s.emitGroup inner (origin.getD span)).tokens :=
      counts_emitGroup hs hinner (hmacros.paired hbody) span _
    exact hstep.cons (ih hresult hmacros.tail hstep.chained)
  | @item depth expanding origin item span rest fault s added registry result _ _ hadd _ ih =>
    have hstep := counts_addItem hs span hadd
    exact hstep.cons (ih hresult hmacros.tail hstep.chained)

theorem counts_expand {last : Registry} (hmacros : PairedMacros macros items)
    (hs : Chained s.tokens)
    (hok : expand macros expanding origin items fault s registry = (.ok t, last)) :
    Counts items s.tokens t.tokens :=
  ((expands_iff (Nat.le_refl _)).mpr hok.symm).counts rfl hmacros hs

/-! ## What is refused -/

namespace Stream

/-- If enough parentheses are open, the scan back for the one that opens the group finds it. -/
theorem exists_groupLength {tokens : List Token} {depth level : Nat}
    (hopen : openAfter tokens = some level) (hle : depth + 1 ≤ level) (count : Nat) :
    ∃ n, groupLength (depth + 1) count tokens = some n := by
  induction tokens generalizing depth level count with
  | nil =>
    obtain rfl : 0 = level := Option.some.inj hopen
    simp at hle
  | cons x before ih =>
    rw [openAfter_cons] at hopen
    obtain ⟨level', hbefore, hstep⟩ := Option.bind_eq_some_iff.mp hopen
    cases hx : x.kind with
    | closing =>
      rw [hx, stepLevel] at hstep
      rw [groupLength, hx]
      split at hstep
      · simp at hstep
      · obtain rfl := Option.some.inj hstep
        exact ih hbefore (by omega) (count + 1)
    | opening =>
      rw [hx, stepLevel] at hstep
      obtain rfl := Option.some.inj hstep
      rw [groupLength, hx]
      cases depth with
      | zero => exact ⟨count + 1, rfl⟩
      | succ depth => exact ih hbefore (by omega) (count + 1)
    | _ =>
      rw [hx] at hstep
      obtain rfl := Option.some.inj hstep
      rw [groupLength, hx]
      exact ih hbefore hle (count + 1)

variable {k before : Nat} {base : List Token}

/-- The last term never reaches back behind tokens that close no more than they open. -/
theorem exists_termLength_of_within {tokens : List Token} {n : Nat}
    (h : termLength (tokens.map (Token.move k before) ++ base) = some n) (hbase : Opened base)
    (hopen : openAfter tokens ≠ none) : ∃ m, termLength tokens = some m := by
  induction tokens generalizing n with
  | nil =>
    -- in front there is nothing, or a parenthesis that opens
    cases base with
    | nil => simp [termLength] at h
    | cons y base =>
      have hy : y.kind = .opening := hbase y rfl
      simp [termLength, hy] at h
  | cons x rest ih =>
    obtain ⟨level, hlevel⟩ := Option.ne_none_iff_exists'.mp hopen
    rw [openAfter_cons] at hlevel
    obtain ⟨level', hrest, hstep⟩ := Option.bind_eq_some_iff.mp hlevel
    rw [List.map_cons, List.cons_append] at h
    cases hx : x.kind with
    | symbol value => exact ⟨1, termLength_cons_operand (.inr ⟨value, hx⟩) rest⟩
    | empty => exact ⟨1, termLength_cons_operand (.inl hx) rest⟩
    | closing =>
      rw [termLength_cons_closing hx]
      rw [hx, stepLevel] at hstep
      split at hstep
      · simp at hstep
      · exact exists_groupLength hrest (by omega) 1
    | closure =>
      have hmoved : (x.move k before).kind = .closure := by
        rw [Token.move, hx]
        rfl
      rw [termLength_cons_closure hmoved, Option.map_eq_some_iff] at h
      obtain ⟨m, hm, -⟩ := h
      obtain ⟨m', hm'⟩ := ih hm (by rw [hrest]; simp)
      exact ⟨m' + 1, by rw [termLength_cons_closure hx, hm']; rfl⟩
    | opening | alternation | concatenation =>
      simp [termLength, Token.move, TokenKind.shift, hx] at h

/-- **A repetition that is refused at the start of a pattern is refused behind a parenthesis.** -/
theorem Within.exists_repeatTerm_error {s' : Stream} (h : Within k before base s s')
    (hbase : Opened base) (hopen : openAfter s.tokens ≠ none) {min : Nat} {max : Option Nat}
    {span : Span} {e : Error} (herror : s.repeatTerm min max span = .error e) (span' : Span) :
    ∃ e', s'.repeatTerm min max span' = .error e' := by
  have hsize : s.size ≤ s'.size := by
    rw [s.size_eq, s'.size_eq, h, List.length_append, List.length_map]
    omega
  unfold Stream.repeatTerm at herror ⊢
  split_ifs at herror ⊢ with hinvalid hmany
  · exact ⟨_, rfl⟩
  · exact ⟨_, rfl⟩
  · cases hlength' : termLength s'.tokens with
    | none => exact ⟨_, rfl⟩
    | some n =>
      rw [h] at hlength'
      obtain ⟨m, hlength⟩ := exists_termLength_of_within hlength' hbase hopen
      obtain rfl := Option.some.inj ((termLength_within hlength k before base).symm.trans hlength')
      rw [hlength] at herror
      simp only at herror ⊢
      split at herror
      · simp at herror
      · simp at herror
      · simp at herror
      · unfold writeOut at herror ⊢
        split at herror
        · next hlarge => exact ⟨_, if_pos (by omega)⟩
        · simp at herror

end Stream

theorem not_stray {tokens : List Token} (hopen : openAfter tokens ≠ none) : ¬ Stray tokens :=
  fun hstray => hopen hstray.levelAfter_eq

theorem MirrorsExpanded.exists_error {σ : Substitution} {e : Error} {last : Registry}
    {result' : Expanded} (h : MirrorsExpanded σ (.error e, last) result') :
    ∃ e' last', result' = (.error e', last') := by
  cases h with
  | tooLarge | error => exact ⟨_, _, rfl⟩

section Behind

variable {prior : List Bytes} {before : Nat} {base : List Token} {items' : List (Item × Span)}
  {s' t' : Stream} {registry' last last' : Registry} {e : Error}
  (hs : s.Within prior.length before base s')
  (hregistry : registry'.toList = prior ++ registry.toList) (hbase : Opened base)

include hs hregistry hbase

/-- An item that is refused at the start of a pattern is refused behind a parenthesis. -/
theorem exists_error_step {x x' : Item × Span} (hx : MovedItem before origin x x')
    (hopen : openAfter s.tokens ≠ none)
    (herror : expand macros expanding origin [x] none s registry = (.error e, last)) :
    ∃ e' last', expand macros expanding (origin.map (Span.move before)) [x'] none s' registry' =
      (.error e', last') := by
  obtain ⟨item', span'⟩ := x'
  obtain ⟨hitem, hspan⟩ := hx
  simp only at hitem hspan
  have hexpands := (expands_iff (Nat.le_refl _)).mpr herror.symm
  generalize macros.countOutside expanding = depth at hexpands
  cases hexpands with
  | action h | letter _ h | reference _ _ _ h | item _ _ _ h => cases h
  | unknown hbody hname =>
    subst hitem
    rw [expand_unknown hbody hname]
    exact ⟨_, _, rfl⟩
  | recursive hbody hname =>
    subst hitem
    rw [expand_recursive hbody hname]
    exact ⟨_, _, rfl⟩
  | @refused _ _ _ name body span _ _ _ _ _ e hbody hname hinner =>
    subst hitem
    -- in the body of the macro nothing stands before the tokens
    have hsize : registry'.size = prior.length + registry.size := by
      have hlength := congrArg List.length hregistry
      rwa [List.length_append] at hlength
    have hmirrors : MirrorsExpanded (.moved prior.length)
        (expand macros (name :: expanding) (some (origin.getD span)) (lex body).items
          (lex body).error .empty registry)
        (expand macros (name :: expanding) (some ((origin.getD span).move before)) (lex body).items
          (lex body).error .empty registry') :=
      mirrors_expand _ .nil hsize (SameItems.refl _) rfl
    rw [hinner.expand_eq] at hmirrors
    obtain ⟨e', last', hrefused⟩ := hmirrors.exists_error
    rw [expand_reference hbody hname, hspan, hrefused]
    exact ⟨_, _, rfl⟩
  | @rejected _ _ _ item span _ _ _ _ _ haction hname hadd =>
    subst hitem
    cases item' with
    | repetition min max =>
      obtain ⟨e', hrepeat⟩ := hs.exists_repeatTerm_error hbase hopen hadd
        ((origin.getD span).move before)
      have hrefused : addItem s' ((origin.getD span).move before) (.repetition min max) =
        .error e' := hrepeat
      rw [expand_item haction hname, hspan, hrefused]
      exact ⟨e', registry', rfl⟩
    | _ => simp [addItem] at hadd

variable (hmacros : PairedMacros macros items) (hchained : Chained s.tokens)
  (hlevel : ((openAfter s.tokens).bind fun level => itemLevel level items) ≠ none)
  (hitems : List.Forall₂ (MovedItem before origin) items items')

include hmacros hchained hlevel hitems

/-- **Items that are refused at the start of a pattern are refused behind a parenthesis**, if they
close no more parentheses than they open. -/
theorem exists_error_within
    (herror : expand macros expanding origin items fault s registry = (.error e, last)) :
    ∃ e' last', expand macros expanding (origin.map (Span.move before)) items' fault s' registry' =
      (.error e', last') := by
  induction items generalizing s s' registry registry' items' with
  | nil =>
    cases hitems
    rw [expand.eq_def] at herror ⊢
    cases fault with
    | none => simp at herror
    | some e' => exact ⟨e', registry', rfl⟩
  | cons x rest ih =>
    obtain ⟨x', rest', hx, hrest, rfl⟩ := List.forall₂_cons_left_iff.mp hitems
    rw [← List.singleton_append, expand_append] at herror ⊢
    generalize hstep : expand macros expanding origin [x] none s registry = result at herror
    obtain ⟨result, registry₁⟩ := result
    cases result with
    | error e₁ =>
      have hopen : openAfter s.tokens ≠ none := by
        intro hnone
        rw [hnone] at hlevel
        exact hlevel rfl
      obtain ⟨e', last', hrefused⟩ := exists_error_step hs hregistry hbase hx hopen hstep
      rw [hrefused]
      exact ⟨e', last', rfl⟩
    | ok s₁ =>
      have hpaired : PairedMacros macros [x] :=
        PairedMacros.of_append_left (show PairedMacros macros ([x] ++ rest) from hmacros)
      have hcounts := counts_expand hpaired hchained hstep
      rw [← hcounts.bind_itemLevel] at hlevel
      have hwithin := expand_within hstep hs hregistry (.cons hx .nil) hbase
        (.inr (not_stray fun hnone => hlevel (by rw [hnone]; rfl)))
      generalize hstep' : expand macros expanding (origin.map (Span.move before)) [x'] none s'
        registry' = result' at hwithin ⊢
      cases hwithin with
      | tooLarge => exact ⟨_, _, rfl⟩
      | same hs₁ hregistry₁ =>
        exact ih hs₁ hregistry₁ hmacros.tail hcounts.chained hlevel hrest herror

/-- **What is expanded behind a parenthesis is expanded at the start of a pattern**, if it closes no
more parentheses than it opens: the tokens are the same. -/
theorem exists_expand_of_within
    (hok : expand macros expanding (origin.map (Span.move before)) items' fault s' registry' =
      (.ok t', last')) :
    ∃ t last, expand macros expanding origin items fault s registry = (.ok t, last) ∧
      t.Within prior.length before base t' := by
  generalize halone : expand macros expanding origin items fault s registry = alone
  obtain ⟨result, last⟩ := alone
  cases result with
  | error e =>
    obtain ⟨e', last'', herror⟩ :=
      exists_error_within hs hregistry hbase hmacros hchained hlevel hitems halone
    simp [hok] at herror
  | ok t =>
    refine ⟨t, last, rfl, ?_⟩
    have hcounts := counts_expand hmacros hchained halone
    have hopen : openAfter t.tokens ≠ none := hcounts.openAfter_eq ▸ hlevel
    have hwithin := expand_within halone hs hregistry hitems hbase (.inr (not_stray hopen))
    rw [hok] at hwithin
    cases hwithin with
    | same ht => exact ht

end Behind

end ActionRegex.Pattern
