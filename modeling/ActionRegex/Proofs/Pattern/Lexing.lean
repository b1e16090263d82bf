import ActionRegex.Pattern.Lexing
import Mathlib.Tactic.ByContra
import Mathlib.Tactic.SplitIfs

/-!
# Items that are read

A property of what the reader of one item gives holds of all items of a pattern
(`forall_items_of_readItem`). The one that is needed elsewhere: a set among the items has a member,
since a class without members is refused and the other sets are fixed (`hasMember_of_mem_lex`).
-/

namespace ActionRegex.Pattern

/-! ## All items -/

theorem forall_items_of_readItem {P : Item → Prop}
    (hread : ∀ pos b rest item next, readItem pos b rest = .ok (item, next) → P item)
    {cursor : Cursor} {read : List (Item × Span)} (hP : ∀ entry ∈ read, P entry.1) :
    ∀ entry ∈ (lexFrom cursor read).items, P entry.1 := by
  fun_induction lexFrom cursor read with
  | case1 cursor read hrest => exact fun entry hmem => hP entry (List.mem_reverse.mp hmem)
  | case2 cursor read b rest hrest hblank ih => exact ih hP
  | case3 cursor read b rest hrest hblank e herror =>
    exact fun entry hmem => hP entry (List.mem_reverse.mp hmem)
  | case4 cursor read b rest hrest hblank item next hok ih =>
    refine ih fun entry hmem => ?_
    rcases List.mem_cons.mp hmem with rfl | hmem
    · exact hread _ _ _ _ _ hok
    · exact hP entry hmem

/-! ## Sets have members -/

/-- A set among the items has a member. -/
def Item.HasMember (item : Item) : Prop :=
  ∀ set, item = .oneOf set → ∃ c, set.contains c = true

theorem exists_contains_of_isEmpty {set : ByteSet} (h : set.isEmpty = false) :
    ∃ c, set.contains c = true := by
  by_contra hnone
  have hbits : set.bits = 0 := BitVec.eq_of_getLsbD_eq fun i hi => by
    have hi' := fun h => hnone ⟨UInt8.ofNat i, h⟩
    simpa [ByteSet.contains, UInt8.toNat_ofNat', Nat.mod_eq_of_lt hi] using hi'
  simp [ByteSet.isEmpty, hbits] at h

theorem exists_contains_of_ofEscape? {b : UInt8} {set : ByteSet}
    (h : ByteSet.ofEscape? b = some set) : ∃ c, set.contains c = true := by
  have hword : ByteSet.word.contains 0x61 = true ∧ ByteSet.word.contains 0 = false := by
    decide +kernel
  have hspace : ByteSet.space.contains 0x20 = true ∧ ByteSet.space.contains 0 = false := by
    decide +kernel
  have hdigit : ByteSet.digit.contains 0x30 = true ∧ ByteSet.digit.contains 0 = false := by
    decide +kernel
  have hcomplement : ∀ {s : ByteSet}, s.contains 0 = false → ∃ c, s.complement.contains c = true :=
    fun h => ⟨0, by rw [ByteSet.contains_complement, h]; rfl⟩
  unfold ByteSet.ofEscape? at h
  split_ifs at h
  all_goals obtain rfl := Option.some.inj h
  · exact ⟨_, hword.1⟩
  · exact hcomplement hword.2
  · exact ⟨_, hspace.1⟩
  · exact hcomplement hspace.2
  · exact ⟨_, hdigit.1⟩
  · exact hcomplement hdigit.2

theorem hasMember_of_ofPunctuation? {b : UInt8} {item : Item} (h : ofPunctuation? b = some item) :
    item.HasMember := by
  unfold ofPunctuation? at h
  split_ifs at h
  all_goals obtain rfl := Option.some.inj h
  all_goals intro set hset
  all_goals simp only [reduceCtorEq, Item.oneOf.injEq] at hset
  exact ⟨0, by rw [← hset]; decide +kernel⟩

theorem hasMember_of_readClosingBrace {start : Nat} {item item' : Item} {cursor next : Cursor}
    (hitem : item.HasMember) (h : readClosingBrace start item cursor = .ok (item', next)) :
    item'.HasMember := by
  unfold readClosingBrace at h
  split at h
  · obtain ⟨rfl, -⟩ := Prod.mk.inj (Except.ok.inj h)
    exact hitem
  · simp at h

theorem hasMember_of_readRepetition {start : Nat} {rest : Bytes} {item : Item} {next : Cursor}
    (h : readRepetition start rest = .ok (item, next)) : item.HasMember := by
  have hrepetition : ∀ min max, (Item.repetition min max).HasMember := by simp [Item.HasMember]
  unfold readRepetition at h
  split at h
  · simp at h
  · split at h
    · split at h
      · simp at h
      · exact hasMember_of_readClosingBrace (hrepetition _ _) h
    · exact hasMember_of_readClosingBrace (hrepetition _ _) h

theorem hasMember_of_closeClass {start : Nat} {set : ByteSet} {cursor next : Cursor} {item : Item}
    (h : closeClass start set cursor = .ok (item, next)) : item.HasMember := by
  unfold closeClass at h
  split at h
  · simp at h
  · next hempty =>
    obtain ⟨rfl, -⟩ := Prod.mk.inj (Except.ok.inj h)
    intro set' hset
    obtain rfl := Item.oneOf.inj hset
    exact exists_contains_of_isEmpty (by simpa using hempty)

theorem hasMember_of_readItem {pos : Nat} {b : UInt8} {rest : Bytes} {item : Item} {next : Cursor}
    (h : readItem pos b rest = .ok (item, next)) : item.HasMember := by
  unfold readItem at h
  split at h
  · next hpunctuation =>
    obtain ⟨rfl, -⟩ := Prod.mk.inj (Except.ok.inj h)
    exact hasMember_of_ofPunctuation? hpunctuation
  · split_ifs at h
    · exact hasMember_of_readRepetition h
    · unfold readAction at h
      split at h
      · simp at h
      · obtain ⟨rfl, -⟩ := Prod.mk.inj (Except.ok.inj h)
        simp [Item.HasMember]
    · unfold readClass at h
      split at h
      · simp at h
      · exact hasMember_of_closeClass h
    · unfold readEscapeItem at h
      split at h
      · simp at h
      · obtain ⟨rfl, -⟩ := Prod.mk.inj (Except.ok.inj h)
        simp [Item.HasMember]
      · next hescape =>
        obtain ⟨rfl, -⟩ := Prod.mk.inj (Except.ok.inj h)
        intro set hset
        obtain rfl := Item.oneOf.inj hset
        unfold readEscape at hescape
        split at hescape
        · next hletter =>
          obtain ⟨heq, -⟩ := Prod.mk.inj (Except.ok.inj hescape)
          obtain rfl := Sum.inr.inj heq
          obtain ⟨b, -, hb⟩ := Option.bind_eq_some_iff.mp hletter
          exact exists_contains_of_ofEscape? hb
        · split at hescape
          · simp at hescape
          · simp at hescape
    · unfold readQuotedItem at h
      split at h
      · simp at h
      · obtain ⟨rfl, -⟩ := Prod.mk.inj (Except.ok.inj h)
        simp [Item.HasMember]
    · obtain ⟨rfl, -⟩ := Prod.mk.inj (Except.ok.inj h)
      simp [Item.HasMember]
    · obtain ⟨rfl, -⟩ := Prod.mk.inj (Except.ok.inj h)
      simp [Item.HasMember]

/-- **Sets among the items of a pattern have members.** -/
theorem hasMember_of_mem_lex {pattern : Bytes} {item : Item} {span : Span}
    (h : (item, span) ∈ (lex pattern).items) : item.HasMember :=
  forall_items_of_readItem (fun _ _ _ _ _ => hasMember_of_readItem) (by simp) _ h

end ActionRegex.Pattern
