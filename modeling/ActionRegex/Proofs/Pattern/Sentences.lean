import ActionRegex.Proofs.Pattern.Within.Expansion

/-!
# Sentences of tokens

A stream in which no term stands right behind a term has a tree if and only if its tokens are a
sentence, or are nothing but parentheses in pairs, which is the empty text
(`forms_or_parens_of_treeOfStream`). The tokens are read from left to right: `Reads` says which
tokens start a sentence and how many groups are open behind them. Each token that has the term
before it that it needs continues such tokens (`Reads.add`).
-/

namespace ActionRegex.Pattern

/-! ## Longer alternatives -/

theorem Forms.add_concat {l r : List Token} {t u : Tree} {x : Token} (hl : Forms .alternatives l t)
    (hx : x.kind = .concatenation) (hr : Forms .term r u) :
    ∃ v, Forms .alternatives (l ++ x :: r) v := by
  cases hl with
  | sequence h => exact ⟨_, .sequence (.concat h hx hr)⟩
  | alternate hl hbar h =>
    rw [List.append_assoc, List.cons_append]
    exact ⟨_, .alternate hl hbar (.concat h hx hr)⟩

theorem Forms.add_closure_sequence {l : List Token} {t : Tree} {x : Token}
    (h : Forms .sequence l t) (hx : x.kind = .closure) : ∃ u, Forms .sequence (l ++ [x]) u := by
  cases h with
  | term h => exact ⟨_, .term (.closure h hx)⟩
  | concat hl hconcat hr =>
    rw [List.append_assoc, List.cons_append]
    exact ⟨_, .concat hl hconcat (.closure hr hx)⟩

theorem Forms.add_closure {l : List Token} {t : Tree} {x : Token} (h : Forms .alternatives l t)
    (hx : x.kind = .closure) : ∃ u, Forms .alternatives (l ++ [x]) u := by
  cases h with
  | sequence h =>
    obtain ⟨u, hu⟩ := h.add_closure_sequence hx
    exact ⟨u, .sequence hu⟩
  | alternate hl hbar h =>
    obtain ⟨u, hu⟩ := h.add_closure_sequence hx
    rw [List.append_assoc, List.cons_append]
    exact ⟨_, .alternate hl hbar hu⟩

/-! ## Beginnings of sentences -/

/-- What a group of tokens holds up to a place; a bar stands also for a concatenation. -/
inductive Holds : Place → List Token → Prop
  | start : Holds .start []
  | term {l : List Token} {t : Tree} (h : Forms .alternatives l t) : Holds .term l
  | bar {l : List Token} {t : Tree} {x : Token} (h : Forms .alternatives l t)
    (hx : x.kind = .alternation ∨ x.kind = .concatenation) : Holds .bar (l ++ [x])

/-- Tokens in the order of the text that start a sentence, up to a place inside `depth` groups. -/
inductive Reads : Nat → Place → List Token → Prop
  | outside {p : Place} {l : List Token} (h : Holds p l) : Reads 0 p l
  | group {depth : Nat} {p q : Place} {l r : List Token} {x : Token} (hl : Reads depth q l)
    (hx : x.kind = .opening) (hr : Holds p r) : Reads (depth + 1) p (l ++ x :: r)

theorem Holds.add_term {p : Place} {l r : List Token} {t : Tree} (hl : Holds p l) (hp : p ≠ .term)
    (hr : Forms .term r t) : Holds .term (l ++ r) := by
  cases hl with
  | start => exact .term (.sequence (.term hr))
  | term => exact absurd rfl hp
  | bar h hx =>
    rw [List.append_assoc]
    rcases hx with hx | hx
    · exact .term (.alternate h hx (.term hr))
    · obtain ⟨u, hu⟩ := h.add_concat hx hr
      exact .term hu

namespace Reads

variable {depth : Nat} {p : Place} {l : List Token} {x : Token}

/-- The groups before the last open one do not matter for what stands in it. -/
theorem extend {q : Place} {r : List Token} (h : Reads depth p l)
    (hholds : ∀ {k}, Holds p k → Holds q (k ++ r)) : Reads depth q (l ++ r) := by
  cases h with
  | outside h => exact .outside (hholds h)
  | group hl hx hr =>
    rw [List.append_assoc]
    exact .group hl hx (hholds hr)

theorem add_term {r : List Token} {t : Tree} (h : Reads depth p l) (hp : p ≠ .term)
    (hr : Forms .term r t) : Reads depth .term (l ++ r) :=
  h.extend fun hk => hk.add_term hp hr

theorem add_operator (h : Reads depth .term l)
    (hx : x.kind = .alternation ∨ x.kind = .concatenation) : Reads depth .bar (l ++ [x]) := by
  refine h.extend fun hk => ?_
  cases hk with
  | term h => exact .bar h hx

theorem add_closure (h : Reads depth .term l) (hx : x.kind = .closure) :
    Reads depth .term (l ++ [x]) := by
  refine h.extend fun hk => ?_
  cases hk with
  | term h =>
    obtain ⟨u, hu⟩ := h.add_closure hx
    exact .term hu

/-- Whether a term ends at the place is seen from the last token. -/
theorem place_eq_term_iff (h : Reads depth p l) : p = .term ↔ endsTerm l.reverse = true := by
  have hholds : ∀ {p : Place} {l : List Token} (base : List Token), endsTerm base = false →
      Holds p l → (p = .term ↔ endsTerm (l.reverse ++ base) = true) := by
    intro p l base hbase h
    cases h with
    | start => simp [hbase]
    | term h => simp [h.endsTerm_reverse_append]
    | bar h hx => rcases hx with hx | hx <;> simp [endsTerm, hx, TokenKind.endsTerm]
  cases h with
  | outside h => simpa using hholds [] rfl h
  | group hl hx hr =>
    rw [List.reverse_append, List.reverse_cons, List.append_assoc]
    exact hholds _ (by simp [endsTerm, hx, TokenKind.endsTerm]) hr

/-- A group stands where a term can start, and it is one. -/
theorem add_closing (h : Reads (depth + 1) .term l) (hx : x.kind = .closing)
    (hlinked : Linked l.reverse) : Reads depth .term (l ++ [x]) := by
  cases h with
  | group hl hopening hr =>
    cases hr with
    | term h =>
      rw [List.append_assoc]
      refine hl.add_term (fun hp => ?_) (.group hopening h hx)
      rw [List.reverse_append, List.reverse_cons, List.append_assoc] at hlinked
      have hends := hlinked.of_append_right.1 (by rw [hopening]; rfl)
      simp [hl.place_eq_term_iff.mp hp] at hends

/-- **A token that has the term before it that it needs leads to a longer beginning.** -/
theorem add {before : List Token} {depth' : Nat} (h : Reads depth p before.reverse)
    (hlinked : Linked (x :: before)) (hneeds : x.kind.needsTerm = true → endsTerm before = true)
    (hstep : stepLevel depth x.kind = some depth') :
    ∃ q, Reads depth' q (x :: before).reverse := by
  rw [List.reverse_cons]
  have hplace := h.place_eq_term_iff
  rw [List.reverse_reverse] at hplace
  have hstart : x.kind.startsTerm = true → p ≠ .term := by
    intro hstarts hp
    rw [hlinked.1 hstarts] at hplace
    exact absurd (hplace.mp hp) (by decide)
  cases hx : x.kind with
  | symbol s =>
    rw [hx] at hstart hstep
    obtain rfl := Option.some.inj hstep
    exact ⟨.term, h.add_term (hstart rfl) (.symbol hx)⟩
  | empty =>
    rw [hx] at hstart hstep
    obtain rfl := Option.some.inj hstep
    exact ⟨.term, h.add_term (hstart rfl) (.empty hx)⟩
  | opening =>
    rw [hx] at hstep
    obtain rfl := Option.some.inj hstep
    exact ⟨.start, .group h hx .start⟩
  | closing =>
    obtain rfl := hplace.mpr (hneeds (by rw [hx]; rfl))
    rw [hx, stepLevel] at hstep
    split at hstep
    · simp at hstep
    · next hdepth =>
      obtain rfl := Option.some.inj hstep
      obtain ⟨depth, rfl⟩ := Nat.exists_eq_add_one_of_ne_zero hdepth
      exact ⟨.term, h.add_closing hx (by rw [List.reverse_reverse]; exact hlinked.2)⟩
  | alternation =>
    obtain rfl := hplace.mpr (hneeds (by rw [hx]; rfl))
    rw [hx] at hstep
    obtain rfl := Option.some.inj hstep
    exact ⟨.bar, h.add_operator (.inl hx)⟩
  | concatenation =>
    obtain rfl := hplace.mpr (hneeds (by rw [hx]; rfl))
    rw [hx] at hstep
    obtain rfl := Option.some.inj hstep
    exact ⟨.bar, h.add_operator (.inr hx)⟩
  | closure =>
    obtain rfl := hplace.mpr (hneeds (by rw [hx]; rfl))
    rw [hx] at hstep
    obtain rfl := Option.some.inj hstep
    exact ⟨.term, h.add_closure hx⟩

end Reads

/-- **Tokens with nothing wrong start a sentence.** -/
theorem exists_reads {tokens : List Token} {depth : Nat} (hlinked : Linked tokens)
    (hsound : Sound tokens) (hopen : openAfter tokens = some depth) :
    ∃ p, Reads depth p tokens.reverse := by
  induction tokens generalizing depth with
  | nil =>
    obtain rfl := Option.some.inj hopen
    exact ⟨.start, .outside .start⟩
  | cons x before ih =>
    rw [openAfter_cons] at hopen
    obtain ⟨depth', hbefore, hstep⟩ := Option.bind_eq_some_iff.mp hopen
    obtain ⟨p, hp⟩ := ih hlinked.2 hsound.2 hbefore
    exact hp.add hlinked hsound.1 hstep

/-- **Tokens with nothing wrong are a sentence**, if a term ends with the last one. -/
theorem exists_forms {tokens : List Token} (hlinked : Linked tokens) (hsound : Sound tokens)
    (hopen : openAfter tokens = some 0) (hends : endsTerm tokens = true) :
    ∃ t, Forms .alternatives tokens.reverse t := by
  obtain ⟨p, hp⟩ := exists_reads hlinked hsound hopen
  obtain rfl := hp.place_eq_term_iff.mpr (by rwa [List.reverse_reverse])
  cases hp with
  | outside h =>
    cases h with
    | term h => exact ⟨_, h⟩

/-! ## Streams of patterns -/

namespace Stream

variable {s t : Stream}

theorem linked_dropLast (h : Linked s.tokens) (n : Nat) : Linked (s.dropLast n).tokens := by
  rw [← List.take_append_drop n s.tokens] at h
  exact h.of_append_right

theorem linked_repeatTerm (h : Linked s.tokens) {min : Nat} {max : Option Nat} {span : Span}
    (hok : s.repeatTerm min max span = .ok t) : Linked t.tokens := by
  obtain ⟨-, length, -, hto⟩ := exists_repeatsTo hok
  cases hto with
  | once => exact h
  | closure => exact linked_emit h _ span
  | removed => exact linked_emit (linked_dropLast h length) _ span
  | written =>
    have hopened := linked_emit (linked_dropLast h length) .opening span
    exact linked_emit ((Written.emitRepeated _ _ _ span _).linked hopened) _ span

theorem linked_emitBytes (h : Linked s.tokens) (span : Span) (bytes : Bytes) :
    Linked (s.emitBytes span bytes).tokens := by
  unfold emitBytes
  split
  · exact linked_emit h _ span
  · exact linked_emit h _ span
  · exact linked_emit (List.foldlRecOn (motive := fun s : Stream => Linked s.tokens) bytes _
      (linked_emit h _ span) fun s hs b _ => linked_emit hs _ span) _ span

theorem linked_emitSet (h : Linked s.tokens) (span : Span) (set : ByteSet) :
    Linked (s.emitSet span set).tokens := by
  unfold emitSet
  split
  · exact h
  · exact linked_emit h _ span
  · next b rest _ _ =>
    exact linked_emit (List.foldlRecOn (motive := fun s : Stream => Linked s.tokens) rest _
      (linked_emit (linked_emit h _ span) _ span) fun s hs b _ =>
        linked_emit (linked_emit hs _ span) _ span) _ span

theorem linked_emitGroup {inner : Stream} (h : Linked s.tokens) (hinner : Linked inner.tokens)
    (span : Span) : Linked (s.emitGroup inner span).tokens :=
  linked_emit (hinner.append (linked_emit h .opening span) (endsTerm_emit s _ span)) _ span

end Stream

theorem linked_addItem {s t : Stream} (h : Linked s.tokens) {item : Item} {span : Span}
    (hok : addItem s span item = .ok t) : Linked t.tokens := by
  cases item with
  | repetition min max => exact Stream.linked_repeatTerm h hok
  | oneOf set => exact Except.ok.inj hok ▸ Stream.linked_emitSet h span set
  | quoted bytes => exact Except.ok.inj hok ▸ Stream.linked_emitBytes h span bytes
  | action | name => exact Except.ok.inj hok ▸ h
  | _ => exact Except.ok.inj hok ▸ Stream.linked_emit h _ span

/-- **In the stream of a pattern no term stands right behind a term**, whatever its macros are. -/
theorem linked_expand {macros : Macros} {expanding : List Bytes} {origin : Option Span}
    {items : List (Item × Span)} {fault : Option Error} {stream t : Stream} {registry : Registry}
    (h : Linked stream.tokens)
    (hok : (expand macros expanding origin items fault stream registry).1 = .ok t) :
    Linked t.tokens := by
  fun_induction expand macros expanding origin items fault stream registry generalizing t with
  | case1 expanding origin fault stream registry =>
    cases fault with
    | none => exact Except.ok.inj hok ▸ h
    | some e => simp at hok
  | case2 => next ih => exact ih (Stream.linked_emit h _ _) hok
  | case3 => next ih => exact ih (Stream.linked_emit h _ _) hok
  | case4 => simp at hok
  | case5 => simp at hok
  | case6 => simp at hok
  | case7 =>
    next hinner ihInner ih =>
    have hlinked := ihInner (t := _) trivial (congrArg Prod.fst hinner)
    exact ih (Stream.linked_emitGroup h hlinked _) hok
  | case8 => simp at hok
  | case9 => next hadd ih => exact ih (linked_addItem h hadd) hok

theorem linked_of_tokenize {macros : Macros} {pattern : Bytes} {registry last : Registry}
    {s : Stream} (h : tokenize macros pattern registry = (.ok s, last)) : Linked s.tokens := by
  have hempty : Linked Stream.empty.tokens := trivial
  exact linked_expand hempty (congrArg Prod.fst h)

/-! ## The tree of a stream -/

theorem treeOfStream_of_forms {s : Stream} {t : Tree} (h : Forms .alternatives s.tokens.reverse t) :
    treeOfStream s = .ok t := by
  obtain ⟨code, hcode, htree⟩ := treeOfPostfix_of_forms h
  rw [treeOfStream, hcode]
  exact htree

theorem reorder_of_parens {l : List Token} (hparens : ∀ x ∈ l, x.kind.isParen = true)
    (output : List Token) {waiting : List Token} (hwaiting : ∀ x ∈ waiting, x.kind = .opening)
    (hlevel : levelAfter waiting.length l = some 0) : reorder output waiting l = .ok output := by
  induction l generalizing waiting with
  | nil =>
    obtain rfl := List.length_eq_zero_iff.mp (Option.some.inj hlevel)
    rfl
  | cons x rest ih =>
    have hrest := fun y hy => hparens y (List.mem_cons_of_mem x hy)
    have hx := hparens x List.mem_cons_self
    rw [levelAfter] at hlevel
    cases hkind : x.kind with
    | opening =>
      rw [hkind] at hlevel
      rw [reorder, hkind]
      exact ih hrest (List.forall_mem_cons.mpr ⟨hkind, hwaiting⟩) hlevel
    | closing =>
      rw [hkind] at hlevel
      cases waiting with
      | nil => simp [stepLevel] at hlevel
      | cons top waiting =>
        obtain ⟨htop, hwaiting'⟩ := List.forall_mem_cons.mp hwaiting
        rw [reorder, hkind]
        simp only [closeGroup, if_pos htop]
        exact ih hrest hwaiting' (by simpa [stepLevel] using hlevel)
    | _ => simp [hkind, TokenKind.isParen] at hx

theorem treeOfStream_of_parens {s : Stream} (hparens : ∀ x ∈ s.tokens, x.kind.isParen = true)
    (hopen : openAfter s.tokens = some 0) : treeOfStream s = .ok .empty := by
  have hnone : ∀ x ∈ ([] : List Token), x.kind = .opening := by simp
  have hreorder := reorder_of_parens (fun x hx => hparens x (List.mem_reverse.mp hx)) [] hnone hopen
  have hcode : toPostfix s.tokens.reverse = .ok [] := toPostfix_eq_ok_iff.mpr hreorder
  rw [treeOfStream, hcode]
  rfl

/-- **A stream with a tree is a sentence with this tree**, or it is nothing but parentheses in
pairs. -/
theorem forms_or_parens_of_treeOfStream {s : Stream} {t : Tree} (hlinked : Linked s.tokens)
    (h : treeOfStream s = .ok t) :
    Forms .alternatives s.tokens.reverse t ∨
      (∀ x ∈ s.tokens, x.kind.isParen = true) ∧ openAfter s.tokens = some 0 ∧ t = .empty := by
  have htree := h
  unfold treeOfStream at h
  split at h
  · simp at h
  · next code hcode =>
    obtain ⟨hopen, hweight⟩ := of_treeOfPostfix hcode h
    rw [total_reverse, total_reverse] at hweight
    rcases hweight with hone | hnone
    · left
      obtain ⟨hends, hsound⟩ := sound_of_total_weight hlinked hone
      obtain ⟨u, hu⟩ := exists_forms hlinked hsound hopen hends
      obtain rfl := Except.ok.inj (htree.symm.trans (treeOfStream_of_forms hu))
      exact hu
    · right
      have hparens := isParen_of_total_counted hnone
      exact ⟨hparens, hopen,
        Except.ok.inj (htree.symm.trans (treeOfStream_of_parens hparens hopen))⟩

end ActionRegex.Pattern
