import ActionRegex.Proofs.Pattern.Fragments
import ActionRegex.Proofs.Pattern.TokenProperties
import ActionRegex.Proofs.Text.Boundaries

/-!
# Registered fragments

The action blocks that a parser registers are those of the pattern and of the macro bodies that are
expanded (`Expands.forall_registered`). Each of them stands between braces, so it is balanced and a
text of its own, and it can be written between braces again (`blockText_of_parse`).
-/

namespace ActionRegex.Pattern

open Bytes (IsText ofString)

variable {macros : Macros} {pattern : Bytes} {registry : Registry}

/-- A text that can stand between the braces of a block. -/
structure BlockText (text : Bytes) : Prop where
  balanced : BalancedFragment text
  isText : IsText text

/-! ## Blocks of a text -/

theorem exists_block_of_readAction {pos : Nat} {rest text : Bytes} {next : Cursor}
    (h : readAction pos rest = .ok (.action text, next)) :
    ∃ after, rest = text ++ Ascii.rightBrace :: after ∧ BalancedFragment text := by
  unfold readAction at h
  split at h
  · exact nomatch h
  · next n hlength =>
    obtain ⟨inside, after, rfl, hclosed⟩ := closes_of_blockLength hlength trivial
    have hinside : BalancedFragment inside := hclosed
    rw [blockLength_of_nested hinside 0 after, Nat.zero_add] at hlength
    obtain rfl := Option.some.inj hlength
    obtain ⟨htext, -⟩ := Prod.mk.inj (Except.ok.inj h)
    rw [List.take_left] at htext
    obtain rfl := Item.action.inj htext
    exact ⟨after, rfl, hinside⟩

/-- An action block starts with a brace and goes up to the one that closes it. -/
theorem exists_block_of_readItem {pos : Nat} {b : UInt8} {rest text : Bytes} {next : Cursor}
    (h : readItem pos b rest = .ok (.action text, next)) :
    b = Ascii.leftBrace ∧
      ∃ after, rest = text ++ Ascii.rightBrace :: after ∧ BalancedFragment text := by
  unfold readItem at h
  split at h
  · next hpunctuation =>
    obtain ⟨rfl, -⟩ := Prod.mk.inj (Except.ok.inj h)
    exact absurd (inert_of_ofPunctuation? hpunctuation).2 (by simp [Item.isAction])
  · split_ifs at h with hbrace hbounds hbracket hbackslash hquote hletter hliteral
    · obtain ⟨⟨min, max, heq⟩, -⟩ := reads_readRepetition hbounds h
      exact nomatch heq
    · exact ⟨hbrace, exists_block_of_readAction h⟩
    · obtain ⟨⟨set, heq⟩, -⟩ := reads_readClass h
      exact nomatch heq
    · unfold readEscapeItem at h
      split at h <;> exact nomatch h
    · unfold readQuotedItem at h
      split at h <;> exact nomatch h
    · exact nomatch h
    · exact nomatch h

/-- **The action blocks of a text are balanced texts.** -/
theorem blockText_of_mem_lex (hpattern : IsText pattern) {text : Bytes} {span : Span}
    (h : (.action text, span) ∈ (lex pattern).items) : BlockText text := by
  obtain ⟨last, hscan, -⟩ := exists_scans_lex pattern
  obtain ⟨items₁, items₂, b, rest, next, -, hbefore, hitem, -⟩ := hscan.of_mem h
  obtain ⟨before, hrest, -⟩ := hbefore.exists_append
  obtain ⟨rfl, after, rfl, hbalanced⟩ := exists_block_of_readItem hitem
  simp only at hrest
  rw [hrest] at hpattern
  have hbehind : IsText (text ++ Ascii.rightBrace :: after) :=
    (hpattern.of_append_cons (by decide)).2
  exact ⟨hbalanced, (hbehind.of_append_cons (by decide)).1⟩

/-! ## Expansion -/

/-- **What an expansion registers** are the blocks of its items and of the macros. -/
theorem Expands.forall_registered {P : Bytes → Prop} {depth : Nat} {expanding : List Bytes}
    {origin : Option Span} {items : List (Item × Span)} {fault : Option Error} {stream : Stream}
    {result : Expanded}
    (h : Expands macros depth expanding origin items fault stream registry result)
    (hmacros : ∀ name body, macros.body? name = some body →
      ∀ text span, (.action text, span) ∈ (lex body).items → P text)
    (hitems : ∀ text span, (.action text, span) ∈ items → P text)
    (hregistry : ∀ text ∈ registry.toList, P text) : ∀ text ∈ result.2.toList, P text := by
  induction h with
  | done | failed | unknown | recursive | rejected => exact hregistry
  | @action depth expanding origin text span rest fault stream registry result _ ih =>
    refine ih (fun t s hmem => hitems t s (List.mem_cons_of_mem _ hmem)) ?_
    rw [Registry.toList_add]
    refine List.forall_mem_append.mpr ⟨hregistry, List.forall_mem_singleton.mpr ?_⟩
    exact hitems text span List.mem_cons_self
  | letter _ _ ih | item _ _ _ _ ih =>
    exact ih (fun t s hmem => hitems t s (List.mem_cons_of_mem _ hmem)) hregistry
  | refused hbody _ _ ih => exact ih (hmacros _ _ hbody) hregistry
  | reference hbody _ _ _ ihInner ih =>
    exact ih (fun t s hmem => hitems t s (List.mem_cons_of_mem _ hmem))
      (ihInner (hmacros _ _ hbody) hregistry)

theorem registry_of_parse (macros : Macros) (pattern : Bytes) (registry : Registry) :
    (parse macros pattern registry).2 = (tokenize macros pattern registry).2 := by
  rw [parse]
  split
  · next htokenize => rw [htokenize]
  · next htokenize => rw [htokenize]

/-- **Registered fragments can be written between braces.** -/
theorem blockText_of_parse
    (hmacros : ∀ name body, macros.body? name = some body → IsText body)
    (hpattern : IsText pattern) (hregistry : ∀ text ∈ registry.toList, BlockText text) :
    ∀ text ∈ (parse macros pattern registry).2.toList, BlockText text := by
  rw [registry_of_parse]
  have hexpands : Expands macros (macros.countOutside []) [] none (lex pattern).items
      (lex pattern).error .empty registry (tokenize macros pattern registry) :=
    expands_expand (Nat.le_refl _)
  refine hexpands.forall_registered ?_ ?_ hregistry
  · intro name body hbody text span hmem
    exact blockText_of_mem_lex (hmacros name body hbody) hmem
  · intro text span hmem
    exact blockText_of_mem_lex hpattern hmem

/-! ## Several fragments -/

theorem Nested.append {depth : Nat} {l r : Bytes} (hl : Nested depth l) (hr : BalancedFragment r) :
    Nested depth (l ++ r) := by
  induction hl with
  | nil => exact hr
  | opening _ ih => exact .opening ih
  | closing _ ih => exact .closing ih
  | literal hquote hinside _ ih =>
    rw [List.cons_append, List.append_assoc, List.cons_append]
    exact .literal hquote hinside ih
  | byte hleft hright hquote _ ih => exact .byte hleft hright hquote ih

theorem BlockText.append {l r : Bytes} (hl : BlockText l) (hr : BlockText r) : BlockText (l ++ r) :=
  ⟨Nested.append hl.balanced hr.balanced, hl.isText.append hr.isText⟩

/-- Several fragments one after the other can be written between braces, too. -/
theorem blockText_text (h : ∀ text ∈ registry.toList, BlockText text) (indexes : List Nat) :
    BlockText (registry.text indexes) := by
  rw [Registry.text]
  induction indexes with
  | nil => exact ⟨.nil, ⟨"", rfl⟩⟩
  | cons index indexes ih =>
    cases hget : registry.get? index with
    | none => rwa [List.filterMap_cons_none hget]
    | some text =>
      rw [List.filterMap_cons_some hget, List.flatten_cons]
      exact (h text (Array.mem_toList_iff.mpr (Array.mem_of_getElem? hget))).append ih

end ActionRegex.Pattern
