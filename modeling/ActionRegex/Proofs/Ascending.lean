import ActionRegex.Ascending
import ActionRegex.Nfa.Basic
import Mathlib.Data.Finset.Powerset
import Mathlib.Data.List.Permutation
import Mathlib.Data.List.Sort
import Mathlib.Order.RelClasses

/-!
# The order of ascending lists

The operations of `Ascending` keep lists in order, over any strict total order. For maps that is an
order of the keys, `AscendingKeys`. In such a map an entry and the value of its key are the same
thing (`get?_eq_some_iff`), so that statements about maps can be written with entries.
-/

namespace ActionRegex

namespace Symbol

instance : IsStrictTotalOrder Symbol (· < ·) where
  trichotomous a b hab hba := by
    simp only [lt_iff_rank_lt] at hab hba
    exact rank_inj.mp (by omega)
  irrefl a h := Nat.lt_irrefl _ h
  trans a b c hab hbc := Nat.lt_trans hab hbc

end Symbol

namespace Nfa.Edge

theorem lt_iff {a b : Edge} :
    a < b ↔ a.symbol < b.symbol ∨ a.symbol = b.symbol ∧ a.target < b.target := Iff.rfl

instance : IsStrictTotalOrder Edge (· < ·) where
  trichotomous a b hab hba := by
    obtain ⟨sa, ta⟩ := a
    obtain ⟨sb, tb⟩ := b
    simp only [lt_iff, Symbol.lt_iff_rank_lt, not_or, not_and] at hab hba
    have hs : sa = sb := Symbol.rank_inj.mp (by omega)
    have h1 := hab.2 hs
    have h2 := hba.2 hs.symm
    rw [hs, show ta = tb by omega]
  irrefl a h := by
    simp only [lt_iff, Symbol.lt_iff_rank_lt] at h
    omega
  trans a b c hab hbc := by
    simp only [lt_iff, Symbol.lt_iff_rank_lt, ← Symbol.rank_inj] at hab hbc ⊢
    omega

end Nfa.Edge

namespace Ascending

instance isStrictTotalOrder_uint8 : IsStrictTotalOrder UInt8 (· < ·) where
  trichotomous a b hab hba := by
    simp only [UInt8.lt_iff_toNat_lt] at hab hba
    exact UInt8.toNat_inj.mp (by omega)
  irrefl a h := Nat.lt_irrefl _ (UInt8.lt_iff_toNat_lt.mp h)
  trans a b c hab hbc := by
    simp only [UInt8.lt_iff_toNat_lt] at hab hbc ⊢
    omega

/-- Two elements that are not in order the one way are in order the other way. -/
theorem lt_of_not_lt {α : Type} [LT α] [IsStrictTotalOrder α (· < ·)] {a b : α} (h : ¬ a < b)
    (hne : a ≠ b) : b < a := by
  by_contra hba
  exact hne (Std.Trichotomous.trichotomous (r := (· < ·)) a b h hba)

/-! ## Sets -/

section Sets

variable {α : Type} [LT α] [DecidableLT α] [DecidableEq α] [IsStrictTotalOrder α (· < ·)]

theorem pairwise_insert {a : α} {l : List α} (h : l.Pairwise (· < ·)) :
    (insert a l).Pairwise (· < ·) := by
  induction l with
  | nil => simp [insert]
  | cons b rest ih =>
    obtain ⟨hb, hrest⟩ := List.pairwise_cons.mp h
    rw [insert]
    by_cases hab : a < b
    · rw [if_pos hab]
      refine List.pairwise_cons.mpr ⟨?_, h⟩
      intro x hx
      rcases List.mem_cons.mp hx with rfl | hx
      · exact hab
      · exact IsTrans.trans _ _ _ hab (hb x hx)
    · rw [if_neg hab]
      by_cases heq : a = b
      · rw [if_pos heq]
        exact h
      · rw [if_neg heq]
        refine List.pairwise_cons.mpr ⟨?_, ih hrest⟩
        intro x hx
        rcases mem_insert.mp hx with rfl | hx
        · exact lt_of_not_lt hab heq
        · exact hb x hx

theorem pairwise_union {xs : List α} (ys : List α) (h : xs.Pairwise (· < ·)) :
    (union xs ys).Pairwise (· < ·) := by
  induction ys generalizing xs with
  | nil => exact h
  | cons y ys ih => exact ih (pairwise_insert h)

theorem pairwise_ofList (xs : List α) : (ofList xs).Pairwise (· < ·) :=
  pairwise_union xs List.Pairwise.nil

end Sets

/-- Sorting a list without repetition gives the ascending list of its elements. -/
theorem mergeSort_eq {xs ys : List Nat} (hxs : xs.Nodup) (hys : ys.Pairwise (· < ·))
    (h : ∀ x, x ∈ xs ↔ x ∈ ys) : xs.mergeSort = ys := by
  have hsorted : xs.mergeSort.Pairwise (· ≤ ·) := List.pairwise_mergeSort' (· ≤ ·) xs
  have hperm : xs.mergeSort.Perm ys :=
    (List.mergeSort_perm _ _).trans ((List.perm_ext_iff_of_nodup hxs hys.nodup).mpr h)
  exact hperm.eq_of_pairwise (fun _ _ _ _ => Nat.le_antisymm) hsorted (hys.imp Nat.le_of_lt)

/-- There are no more ascending lists of numbers below `n` than sets of them. -/
theorem length_le_two_pow {lists : List (List Nat)} {n : Nat} (hnodup : lists.Nodup)
    (hsorted : ∀ l ∈ lists, l.Pairwise (· < ·)) (hlt : ∀ l ∈ lists, ∀ x ∈ l, x < n) :
    lists.length ≤ 2 ^ n := by
  have hcard : lists.toFinset.card ≤ (Finset.range n).powerset.card := by
    refine Finset.card_le_card_of_injOn List.toFinset ?_ ?_
    · intro l hl
      rw [Finset.mem_coe, List.mem_toFinset] at hl
      rw [Finset.mem_coe, Finset.mem_powerset]
      intro x hx
      exact Finset.mem_range.mpr (hlt l hl x (List.mem_toFinset.mp hx))
    · intro l hl l' hl' heq
      rw [Finset.mem_coe, List.mem_toFinset] at hl hl'
      refine (hsorted l hl).eq_of_mem_iff (hsorted l' hl') fun x => ?_
      rw [← List.mem_toFinset, heq, List.mem_toFinset]
  rw [List.toFinset_card_of_nodup hnodup, Finset.card_powerset, Finset.card_range] at hcard
  exact hcard

/-! ## Entries of maps -/

section Entries

variable {κ β : Type} [DecidableEq κ]

theorem mem_erase {k : κ} {entry : κ × β} {entries : List (κ × β)} :
    entry ∈ erase k entries ↔ entry ∈ entries ∧ entry.1 ≠ k := by
  simp [erase]

theorem mem_of_get? {k : κ} {v : β} {entries : List (κ × β)} (h : get? k entries = some v) :
    (k, v) ∈ entries := by
  induction entries with
  | nil => simp [get?] at h
  | cons entry rest ih =>
    obtain ⟨k', v'⟩ := entry
    rw [get?] at h
    by_cases hk : k = k'
    · rw [if_pos hk] at h
      rw [hk, ← Option.some.inj h]
      exact List.mem_cons_self
    · rw [if_neg hk] at h
      exact List.mem_cons_of_mem _ (ih h)

theorem get?_eq_none_iff {k : κ} {entries : List (κ × β)} :
    get? k entries = none ↔ ∀ v, (k, v) ∉ entries := by
  induction entries with
  | nil => simp [get?]
  | cons entry rest ih =>
    obtain ⟨k', v'⟩ := entry
    rw [get?]
    by_cases hk : k = k'
    · subst hk
      rw [if_pos rfl]
      exact ⟨fun h => by simp at h, fun h => absurd List.mem_cons_self (h v')⟩
    · rw [if_neg hk, ih]
      simp [hk]

variable [LT κ] [DecidableLT κ]

theorem mem_put_self (k : κ) (v : β) (entries : List (κ × β)) : (k, v) ∈ put k v entries :=
  mem_of_get? (get?_put_self k v entries)

theorem eq_or_mem_of_mem_put {k : κ} {v : β} {entry : κ × β} {entries : List (κ × β)}
    (h : entry ∈ put k v entries) : entry = (k, v) ∨ entry ∈ entries := by
  induction entries with
  | nil => exact Or.inl (List.mem_singleton.mp h)
  | cons first rest ih =>
    obtain ⟨k', v'⟩ := first
    rw [put] at h
    by_cases hlt : k < k'
    · rw [if_pos hlt] at h
      exact List.mem_cons.mp h
    · rw [if_neg hlt] at h
      by_cases hk : k = k'
      · rw [if_pos hk] at h
        rcases List.mem_cons.mp h with h | h
        · exact Or.inl h
        · exact Or.inr (List.mem_cons_of_mem _ h)
      · rw [if_neg hk] at h
        rcases List.mem_cons.mp h with h | h
        · exact Or.inr (h ▸ List.mem_cons_self)
        · rcases ih h with h | h
          · exact Or.inl h
          · exact Or.inr (List.mem_cons_of_mem _ h)

theorem mem_put_of_ne {k : κ} {v : β} {entry : κ × β} {entries : List (κ × β)}
    (hmem : entry ∈ entries) (hne : entry.1 ≠ k) : entry ∈ put k v entries := by
  induction entries with
  | nil => simp at hmem
  | cons first rest ih =>
    obtain ⟨k', v'⟩ := first
    rw [put]
    by_cases hlt : k < k'
    · rw [if_pos hlt]
      exact List.mem_cons_of_mem _ hmem
    · rw [if_neg hlt]
      by_cases hk : k = k'
      · rw [if_pos hk]
        rcases List.mem_cons.mp hmem with rfl | hmem
        · exact absurd hk.symm hne
        · exact List.mem_cons_of_mem _ hmem
      · rw [if_neg hk]
        rcases List.mem_cons.mp hmem with rfl | hmem
        · exact List.mem_cons_self
        · exact List.mem_cons_of_mem _ (ih hmem)

end Entries

/-! ## The order of keys -/

section Keys

variable {κ β γ : Type} [LT κ]

/-- The keys of a map are in ascending order, so that every key occurs once. -/
def AscendingKeys (entries : List (κ × β)) : Prop := entries.Pairwise fun a b => a.1 < b.1

instance [DecidableLT κ] (entries : List (κ × β)) : Decidable (AscendingKeys entries) :=
  inferInstanceAs (Decidable (entries.Pairwise fun a b => a.1 < b.1))

theorem ascendingKeys_cons {entry : κ × β} {rest : List (κ × β)} :
    AscendingKeys (entry :: rest) ↔ (∀ x ∈ rest, entry.1 < x.1) ∧ AscendingKeys rest :=
  List.pairwise_cons

theorem AscendingKeys.map {entries : List (κ × β)} (h : AscendingKeys entries)
    {change : κ × β → κ × γ} (hkey : ∀ entry, (change entry).1 = entry.1) :
    AscendingKeys (entries.map change) := by
  refine List.Pairwise.map change ?_ h
  intro a b hab
  rw [hkey, hkey]
  exact hab

theorem AscendingKeys.erase [DecidableEq κ] {entries : List (κ × β)} (h : AscendingKeys entries)
    (k : κ) : AscendingKeys (erase k entries) :=
  List.Pairwise.filter _ h

variable [IsStrictTotalOrder κ (· < ·)]

/-- The entries after the one of a key have other keys. -/
theorem AscendingKeys.ne_of_mem {entry x : κ × β} {rest : List (κ × β)}
    (h : AscendingKeys (entry :: rest)) (hx : x ∈ rest) : x.1 ≠ entry.1 := by
  intro heq
  have hlt := (ascendingKeys_cons.mp h).1 x hx
  rw [heq] at hlt
  exact Std.Irrefl.irrefl (r := (· < ·)) _ hlt

variable [DecidableEq κ]

theorem get?_eq_some_iff {k : κ} {v : β} {entries : List (κ × β)} (h : AscendingKeys entries) :
    get? k entries = some v ↔ (k, v) ∈ entries := by
  refine ⟨mem_of_get?, ?_⟩
  intro hmem
  induction entries with
  | nil => simp at hmem
  | cons entry rest ih =>
    rw [get?]
    rcases List.mem_cons.mp hmem with heq | hmem
    · rw [← heq, if_pos rfl]
    · rw [if_neg (h.ne_of_mem hmem)]
      exact ih (ascendingKeys_cons.mp h).2 hmem

/-- A map is determined by the values of its keys. -/
theorem AscendingKeys.ext {xs ys : List (κ × β)} (hxs : AscendingKeys xs) (hys : AscendingKeys ys)
    (h : ∀ k, get? k xs = get? k ys) : xs = ys := by
  have hnodup : ∀ {l : List (κ × β)}, AscendingKeys l → l.Nodup := by
    intro l hl
    refine List.Pairwise.imp ?_ hl
    rintro a _ hlt rfl
    exact Std.Irrefl.irrefl (r := (· < ·)) _ hlt
  have hperm : xs.Perm ys := by
    refine (List.perm_ext_iff_of_nodup (hnodup hxs) (hnodup hys)).mpr ?_
    rintro ⟨k, v⟩
    rw [← get?_eq_some_iff hxs, ← get?_eq_some_iff hys, h k]
  refine hperm.eq_of_pairwise ?_ hxs hys
  intro a b _ _ hab hba
  exact absurd (IsTrans.trans _ _ _ hab hba) (Std.Irrefl.irrefl (r := (· < ·)) _)

variable [DecidableLT κ]

theorem AscendingKeys.put {entries : List (κ × β)} (h : AscendingKeys entries) (k : κ) (v : β) :
    AscendingKeys (put k v entries) := by
  induction entries with
  | nil => exact List.pairwise_singleton _ _
  | cons first rest ih =>
    obtain ⟨k', v'⟩ := first
    obtain ⟨hfirst, hrest⟩ := ascendingKeys_cons.mp h
    rw [Ascending.put]
    by_cases hlt : k < k'
    · rw [if_pos hlt]
      refine ascendingKeys_cons.mpr ⟨?_, h⟩
      intro x hx
      rcases List.mem_cons.mp hx with rfl | hx
      · exact hlt
      · exact IsTrans.trans _ _ _ hlt (hfirst x hx)
    · rw [if_neg hlt]
      by_cases hk : k = k'
      · rw [if_pos hk, hk]
        exact ascendingKeys_cons.mpr ⟨hfirst, hrest⟩
      · rw [if_neg hk]
        refine ascendingKeys_cons.mpr ⟨?_, ih hrest⟩
        intro x hx
        rcases eq_or_mem_of_mem_put hx with rfl | hx
        · exact lt_of_not_lt hlt hk
        · exact hfirst x hx

/-- A key that comes after all others is set at the end. -/
theorem put_of_forall_lt {k : κ} {entries : List (κ × β)} (h : ∀ entry ∈ entries, entry.1 < k)
    (v : β) : put k v entries = entries ++ [(k, v)] := by
  induction entries with
  | nil => rfl
  | cons first rest ih =>
    obtain ⟨hfirst, hrest⟩ := List.forall_mem_cons.mp h
    have hlt : ¬ k < first.1 := fun hlt => Std.Asymm.asymm (r := (· < ·)) _ _ hfirst hlt
    have hne : k ≠ first.1 := fun heq => Std.Irrefl.irrefl (r := (· < ·)) _ (heq ▸ hfirst)
    rw [put, if_neg hlt, if_neg hne, ih hrest, List.cons_append]

/-- The entries of an ascending map after a key is set. -/
theorem mem_put_iff {k : κ} {v : β} {entry : κ × β} {entries : List (κ × β)}
    (h : AscendingKeys entries) :
    entry ∈ Ascending.put k v entries ↔ entry = (k, v) ∨ entry ∈ entries ∧ entry.1 ≠ k := by
  constructor
  · intro hmem
    by_cases hk : entry.1 = k
    · refine Or.inl (Prod.ext hk ?_)
      have h1 := (get?_eq_some_iff (h.put k v)).mpr (show (k, entry.2) ∈ _ from hk ▸ hmem)
      rw [get?_put_self] at h1
      exact (Option.some.inj h1).symm
    · rcases eq_or_mem_of_mem_put hmem with rfl | hmem
      · exact absurd rfl hk
      · exact Or.inr ⟨hmem, hk⟩
  · rintro (rfl | ⟨hmem, hne⟩)
    · exact mem_put_self k v entries
    · exact mem_put_of_ne hmem hne

end Keys

end Ascending

end ActionRegex
