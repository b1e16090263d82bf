import ActionRegex.Proofs.Pattern.Recursion

/-!
# Properties of all tokens

Some properties of tokens survive everything that is done with a stream: a token that is added
brings operators and the empty text with the same span, copies are the tokens that were there, and a
group has the tokens of its body. If tokens with the spans of the items have such a property, then
all tokens of an expansion do (`Expands.all`). The property may speak of the number of action blocks
that are registered, as long as more blocks do not spoil it.
-/

namespace ActionRegex.Pattern

/-! ## Streams -/

/-- A property of all tokens of a stream. -/
def Stream.All (Q : Token → Prop) (s : Stream) : Prop := ∀ x ∈ s.tokens, Q x

/-- All tokens with a span have the property, actions perhaps excepted. -/
def Admits (Q : Token → Prop) (span : Span) : Prop :=
  ∀ kind : TokenKind, (∀ index, kind ≠ .symbol (.action index)) → Q ⟨kind, span⟩

/-- A property that is handed on to what is added together with a token. -/
def Inherited (Q : Token → Prop) : Prop := ∀ x, Q x → Admits Q x.span

namespace Stream.All

variable {Q : Token → Prop} {s t : Stream} {span : Span}

theorem push (h : s.All Q) {x : Token} (hx : Q x) : (s.push x).All Q :=
  List.forall_mem_cons.mpr ⟨hx, h⟩

/-- The operators and the empty text that are added with a token have its span. -/
theorem emit_of_admits (h : s.All Q) (hspan : Admits Q span) {kind : TokenKind}
    (hkind : Q ⟨kind, span⟩) : (s.emit kind span).All Q := by
  unfold Stream.emit
  split
  · exact (h.push (hspan .concatenation (by simp))).push hkind
  · split
    · exact (h.push (hspan .empty (by simp))).push hkind
    · exact h.push hkind

theorem emit (h : s.All Q) (hspan : Admits Q span) {kind : TokenKind}
    (hkind : ∀ index, kind ≠ .symbol (.action index)) : (s.emit kind span).All Q :=
  h.emit_of_admits hspan (hspan kind hkind)

theorem emitAll {tokens : List Token} (h : s.All Q) (hQ : Inherited Q)
    (htokens : ∀ x ∈ tokens, Q x) : (s.emitAll tokens).All Q := by
  induction tokens generalizing s with
  | nil => exact h
  | cons x tokens ih =>
    obtain ⟨hx, htokens⟩ := List.forall_mem_cons.mp htokens
    exact ih (h.emit_of_admits (hQ x hx) hx) htokens

theorem foldl {α : Type} {f : Stream → α → Stream} (hf : ∀ s a, s.All Q → (f s a).All Q)
    (h : s.All Q) (l : List α) : (l.foldl f s).All Q := by
  induction l generalizing s with
  | nil => exact h
  | cons a l ih => exact ih (hf s a h)

theorem emitBytes (h : s.All Q) (hspan : Admits Q span) (bytes : Bytes) :
    (s.emitBytes span bytes).All Q := by
  unfold Stream.emitBytes
  split
  · exact h.emit hspan (by simp)
  · exact h.emit hspan (by simp)
  · refine Stream.All.emit ?_ hspan (by simp)
    exact foldl (fun s b hs => hs.emit hspan (by simp)) (h.emit hspan (by simp)) _

theorem emitSet (h : s.All Q) (hspan : Admits Q span) (set : ByteSet) :
    (s.emitSet span set).All Q := by
  unfold Stream.emitSet
  split
  · exact h
  · exact h.emit hspan (by simp)
  · refine Stream.All.emit ?_ hspan (by simp)
    refine foldl (fun s b hs => ?_) ((h.emit hspan (by simp)).emit hspan (by simp)) _
    exact (hs.emit hspan (by simp)).emit hspan (by simp)

theorem emitGroup {inner : Stream} (h : s.All Q) (hinner : inner.All Q) (hspan : Admits Q span) :
    (s.emitGroup inner span).All Q := by
  unfold Stream.emitGroup
  refine Stream.All.emit ?_ hspan (by simp)
  exact List.forall_mem_append.mpr ⟨hinner, h.emit hspan (by simp)⟩

theorem dropLast (h : s.All Q) (n : Nat) : (s.dropLast n).All Q :=
  fun x hx => h x (List.mem_of_mem_drop hx)

theorem emitRepeated {term : List Token} (h : s.All Q) (hQ : Inherited Q) (hterm : ∀ x ∈ term, Q x)
    (hspan : Admits Q span) (min : Nat) (max : Option Nat) :
    (Stream.emitRepeated term min max span s).All Q := by
  have hcopying : Stream.Copying (fun s _ => s.All Q) term term span span :=
    ⟨fun kind hkind hs => hs.emit hspan fun index => hkind _, fun hs => hs.emitAll hQ hterm⟩
  exact @Stream.Copying.emitRepeated _ _ _ _ _ s s hcopying min max h

theorem repeatTerm {min : Nat} {max : Option Nat} (h : s.All Q) (hQ : Inherited Q)
    (hspan : Admits Q span) (hok : s.repeatTerm min max span = .ok t) : t.All Q := by
  obtain ⟨-, length, -, hto⟩ := Stream.exists_repeatsTo hok
  cases hto with
  | once => exact h
  | closure => exact h.emit hspan (by simp)
  | removed => exact (h.dropLast length).emit hspan (by simp)
  | written =>
    have hterm : ∀ x ∈ s.lastTokens length, Q x := by
      intro x hx
      exact h x (List.mem_of_mem_take (List.mem_reverse.mp hx))
    have hopened : ((s.dropLast length).emit .opening span).All Q :=
      (h.dropLast length).emit hspan (by simp)
    exact (hopened.emitRepeated hQ hterm hspan _ _).emit hspan (by simp)

theorem addItem {item : Item} (h : s.All Q) (hQ : Inherited Q) (hspan : Admits Q span)
    (hok : addItem s span item = .ok t) : t.All Q := by
  cases item with
  | repetition min max => exact h.repeatTerm hQ hspan hok
  | oneOf set => exact Except.ok.inj hok ▸ h.emitSet hspan set
  | quoted bytes => exact Except.ok.inj hok ▸ h.emitBytes hspan bytes
  | action | name => exact Except.ok.inj hok ▸ h
  | opening | closing | bar | byte => exact Except.ok.inj hok ▸ h.emit hspan (by simp)

end Stream.All

theorem Stream.all_empty (Q : Token → Prop) : Stream.empty.All Q :=
  fun _ hx => absurd hx List.not_mem_nil

/-! ## Expansion -/

variable {macros : Macros} {expanding : List Bytes} {origin : Option Span}
  {items : List (Item × Span)} {fault : Option Error} {registry : Registry}

/-- Expansion takes no action block out of the registry. -/
theorem Expands.size_le {depth : Nat} {stream : Stream} {result : Expanded}
    (h : Expands macros depth expanding origin items fault stream registry result) :
    registry.size ≤ result.2.size := by
  induction h with
  | done | failed | unknown | recursive | rejected => exact Nat.le_refl _
  | action _ ih =>
    rw [Registry.size_add] at ih
    exact Nat.le_of_succ_le ih
  | letter _ _ ih | item _ _ _ _ ih => exact ih
  | refused _ _ _ ih => exact ih
  | reference _ _ _ _ ihInner ih => exact Nat.le_trans ihInner ih

/-- A property of tokens that may depend on the number of registered blocks. -/
structure Tracked (Q : Nat → Token → Prop) : Prop where
  inherited : ∀ n, Inherited (Q n)
  mono : ∀ {m n x}, m ≤ n → Q m x → Q n x

/-- A token may get the span: it has the property, also if it is the next action. -/
structure Tracked.Allows (Q : Nat → Token → Prop) (span : Span) : Prop where
  admits : ∀ n, Admits (Q n) span
  action : ∀ n, Q (n + 1) ⟨.symbol (.action n), span⟩

/-- **All tokens of an expansion have the property**, if tokens with the spans of the items do, or
in the body of a macro tokens with the span of the outermost reference. -/
theorem Expands.all {Q : Nat → Token → Prop} (hQ : Tracked Q) {depth : Nat} {stream t : Stream}
    {result : Expanded}
    (h : Expands macros depth expanding origin items fault stream registry result)
    (hitems : ∀ entry ∈ items, Tracked.Allows Q (origin.getD entry.2))
    (hstream : stream.All (Q registry.size)) (hresult : result.1 = .ok t) :
    t.All (Q result.2.size) := by
  induction h generalizing t with
  | done => exact Except.ok.inj hresult ▸ hstream
  | failed | unknown | recursive | refused | rejected => exact nomatch hresult
  | @action depth expanding origin text span rest fault stream registry result _ ih =>
    obtain ⟨hspan, hrest⟩ := List.forall_mem_cons.mp hitems
    refine ih hrest ?_ hresult
    rw [Registry.size_add]
    have hgrown : stream.All (Q (registry.size + 1)) :=
      fun x hx => hQ.mono (Nat.le_succ _) (hstream x hx)
    exact hgrown.emit_of_admits (hspan.admits _) (hspan.action _)
  | letter _ _ ih =>
    obtain ⟨hspan, hrest⟩ := List.forall_mem_cons.mp hitems
    exact ih hrest (hstream.emit (hspan.admits _) (by simp)) hresult
  | reference _ _ hinner _ ihInner ih =>
    obtain ⟨hspan, hrest⟩ := List.forall_mem_cons.mp hitems
    have hbody := ihInner (fun _ _ => hspan) (Stream.all_empty _) rfl
    refine ih hrest (Stream.All.emitGroup ?_ hbody (hspan.admits _)) hresult
    exact fun x hx => hQ.mono hinner.size_le (hstream x hx)
  | item _ _ hadd _ ih =>
    obtain ⟨hspan, hrest⟩ := List.forall_mem_cons.mp hitems
    exact ih hrest (hstream.addItem (hQ.inherited _) (hspan.admits _) hadd) hresult

end ActionRegex.Pattern
