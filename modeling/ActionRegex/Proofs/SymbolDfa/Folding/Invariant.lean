import ActionRegex.Proofs.SymbolDfa.Paths
import ActionRegex.SymbolDfa.Folding

/-!
# What a folding stands for

Folding changes states in place, but what a state stands for, its members, never changes. That makes
the members the yardstick of every step. The invariant relates states to paths of the automaton at
the start, in two directions.

* **Sound**: a transition leads where a path from a member leads that consumes the same bytes and
  whose actions are fired; what it fires stands on a path from a member, if nothing was fired at the
  start. So with acceptance and the actions on entry.
* **Complete**: a word that is accepted from a member is covered by the state: either it has no
  bytes and the state accepts, or some transition consumes the bytes of a nonempty first part and
  leads to a state with a member that accepts the rest.

When a transition on an action is removed, words that went through it are covered only by a *debt*:
the members of its target. A debt to members that the state covers itself can be dropped, since the
rest of the word is shorter (`Complete.settle`).
-/

namespace ActionRegex.SymbolDfa.Folding

open Ascending (AscendingKeys)
open ActionRegex.Symbol (bytes lastBlock)

variable {dfa : SymbolDfa}

/-! ## Sound transitions -/

/-- Taking a transition fires an action: the action is carried or is its symbol. -/
def Fires (entry : Symbol × Transition) (x : Nat) : Prop :=
  x ∈ entry.2.actions ∨ entry.1 = .action x

/-- A transition between states with the given members tells the truth about paths. -/
structure EdgeSound (dfa : SymbolDfa) (sources targets : List Nat) (entry : Symbol × Transition) :
    Prop where
  label : ∀ x, entry.1 = .action x → x ∈ dfa.actionLabels
  reach : ∀ m' ∈ targets, ∃ m ∈ sources, ∃ u, Path dfa m u m' ∧ u ≠ [] ∧
    bytes u = bytes [entry.1] ∧ ∀ x, .action x ∈ u → Fires entry x
  fires : dfa.Plain → ∀ x, Fires entry x → ∃ m ∈ sources, ∃ u q, Path dfa m u q ∧
    (bytes u = [] ∨ bytes u = bytes [entry.1]) ∧ .action x ∈ lastBlock u

theorem EdgeSound.mono {sources sources' targets : List Nat} {entry : Symbol × Transition}
    (h : EdgeSound dfa sources targets entry) (hsub : ∀ m ∈ sources, m ∈ sources') :
    EdgeSound dfa sources' targets entry where
  label := h.label
  reach m' hm' := by
    obtain ⟨m, hm, u, hpath⟩ := h.reach m' hm'
    exact ⟨m, hsub m hm, u, hpath⟩
  fires hplain x hx := by
    obtain ⟨m, hm, u, q, hpath⟩ := h.fires hplain x hx
    exact ⟨m, hsub m hm, u, q, hpath⟩

/-- Two transitions on one symbol as one, to a state with the members of both targets. -/
theorem EdgeSound.merge {sources left right targets : List Nat} {s : Symbol}
    {old new merged : Transition} (hold : EdgeSound dfa sources left (s, old))
    (hnew : EdgeSound dfa sources right (s, new))
    (htargets : ∀ m ∈ targets, m ∈ left ∨ m ∈ right)
    (hactions : ∀ x, x ∈ merged.actions ↔ x ∈ old.actions ∨ x ∈ new.actions) :
    EdgeSound dfa sources targets (s, merged) := by
  have hfires : ∀ x, Fires (s, merged) x ↔ Fires (s, old) x ∨ Fires (s, new) x := by
    intro x
    simp only [Fires, hactions]
    tauto
  refine ⟨hold.label, fun m' hm' => ?_, fun hplain x hx => ?_⟩
  · rcases htargets m' hm' with hm' | hm'
    · obtain ⟨m, hm, u, hpath, hne, hbytes, hu⟩ := hold.reach m' hm'
      exact ⟨m, hm, u, hpath, hne, hbytes, fun x hx => (hfires x).mpr (Or.inl (hu x hx))⟩
    · obtain ⟨m, hm, u, hpath, hne, hbytes, hu⟩ := hnew.reach m' hm'
      exact ⟨m, hm, u, hpath, hne, hbytes, fun x hx => (hfires x).mpr (Or.inr (hu x hx))⟩
  · rcases (hfires x).mp hx with hx | hx
    · exact hold.fires hplain x hx
    · exact hnew.fires hplain x hx

/-- The actions that a folded transition hands on are those it fires. -/
theorem mem_insert_iff_fires {a x : Nat} {t : Transition} :
    x ∈ Ascending.insert a t.actions ↔ Fires (.action a, t) x := by
  rw [Ascending.mem_insert, Fires, Symbol.action.injEq, eq_comm, or_comm]

theorem fires_withActions_iff {s : Symbol} {t : Transition} {actions : List Nat} {x : Nat} :
    Fires (s, withActions actions t) x ↔ Fires (s, t) x ∨ x ∈ actions := by
  simp only [Fires, withActions, Ascending.mem_union]
  tauto

/-- A transition on an action and one after it, as one transition on the symbol of the second. -/
theorem EdgeSound.inline {sources middle targets : List Nat} {a : Nat} {s : Symbol}
    {t t' : Transition} (h : EdgeSound dfa sources middle (.action a, t))
    (h' : EdgeSound dfa middle targets (s, t')) :
    EdgeSound dfa sources targets (s, withActions (Ascending.insert a t.actions) t') := by
  refine ⟨h'.label, fun m' hm' => ?_, fun hplain x hx => ?_⟩
  · obtain ⟨m₁, hm₁, v, hpath', -, hbytes', hv⟩ := h'.reach m' hm'
    obtain ⟨m, hm, u, hpath, hne, hbytes, hu⟩ := h.reach m₁ hm₁
    refine ⟨m, hm, u ++ v, hpath.trans hpath', by simp [hne], ?_, fun x hx => ?_⟩
    · rw [Symbol.bytes_append, hbytes, hbytes', Symbol.bytes_action, List.nil_append]
    · rw [fires_withActions_iff, mem_insert_iff_fires]
      rcases List.mem_append.mp hx with hx | hx
      · exact Or.inr (hu x hx)
      · exact Or.inl (hv x hx)
  · rw [fires_withActions_iff, mem_insert_iff_fires] at hx
    rcases hx with hx | hx
    -- before the second transition nothing is consumed, so its last block stays the last one
    · obtain ⟨m₁, hm₁, v, q, hpath', hbytes', hv⟩ := h'.fires hplain x hx
      obtain ⟨m, hm, u, hpath, -, hbytes, -⟩ := h.reach m₁ hm₁
      refine ⟨m, hm, u ++ v, q, hpath.trans hpath', ?_, Symbol.mem_lastBlock_append u hv⟩
      rw [Symbol.bytes_append, hbytes, Symbol.bytes_action, List.nil_append]
      exact hbytes'
    · obtain ⟨m, hm, u, q, hpath, hbytes, hu⟩ := h.fires hplain x hx
      rw [Symbol.bytes_action, or_self] at hbytes
      exact ⟨m, hm, u, q, hpath, Or.inl hbytes, hu⟩

/-- A transition and one on an action after it, as one transition on the symbol of the first. -/
theorem EdgeSound.follow {sources middle targets : List Nat} {a : Nat} {s : Symbol}
    {t t' : Transition} (h : EdgeSound dfa sources middle (s, t))
    (h' : EdgeSound dfa middle targets (.action a, t')) (target : Nat) :
    EdgeSound dfa sources targets
      (s, withActions (Ascending.insert a t'.actions) { t with target }) := by
  have hfires : ∀ x, Fires (s, withActions (Ascending.insert a t'.actions) { t with target }) x ↔
      Fires (s, t) x ∨ Fires (.action a, t') x := by
    intro x
    rw [fires_withActions_iff, mem_insert_iff_fires]
    exact Iff.rfl
  refine ⟨h.label, fun m' hm' => ?_, fun hplain x hx => ?_⟩
  · obtain ⟨m₁, hm₁, v, hpath', -, hbytes', hv⟩ := h'.reach m' hm'
    obtain ⟨m, hm, u, hpath, hne, hbytes, hu⟩ := h.reach m₁ hm₁
    refine ⟨m, hm, u ++ v, hpath.trans hpath', by simp [hne], ?_, fun x hx => (hfires x).mpr ?_⟩
    · rw [Symbol.bytes_append, hbytes, hbytes', Symbol.bytes_action, List.append_nil]
    · exact (List.mem_append.mp hx).imp (hu x) (hv x)
  · rcases (hfires x).mp hx with hx | hx
    · exact h.fires hplain x hx
    · obtain ⟨m₁, hm₁, v, q, hpath', hbytes', hv⟩ := h'.fires hplain x hx
      rw [Symbol.bytes_action, or_self] at hbytes'
      obtain ⟨m, hm, u, hpath, -, hbytes, -⟩ := h.reach m₁ hm₁
      refine ⟨m, hm, u ++ v, q, hpath.trans hpath', Or.inr ?_, Symbol.mem_lastBlock_append u hv⟩
      rw [Symbol.bytes_append, hbytes, hbytes', List.append_nil]

/-! ## Sound states -/

/-- A state with the given members tells the truth about paths. If it accepts, then because of a
word without bytes that is accepted from a member; the actions of a first part of the word fire on
entry, and that part is not empty unless the word is. -/
structure StateSound (dfa : SymbolDfa) (membersOf : Nat → List Nat) (sources : List Nat)
    (s : State) : Prop where
  edges : ∀ entry ∈ s.transitions, EdgeSound dfa sources (membersOf entry.2.target) entry
  entry : dfa.Plain → ∀ x ∈ s.entry,
    ∃ m ∈ sources, ∃ u q, Path dfa m u q ∧ bytes u = [] ∧ .action x ∈ u
  accept : s.accept = true → ∃ m ∈ sources, ∃ u v, Accepts dfa m (u ++ v) ∧ bytes (u ++ v) = [] ∧
    (u = [] → v = []) ∧ ∀ x, .action x ∈ u → x ∈ s.entry

theorem stateSound_empty (membersOf : Nat → List Nat) (sources : List Nat) :
    StateSound dfa membersOf sources {} := by
  refine ⟨?_, ?_, ?_⟩ <;> simp

/-! ## Complete states -/

/-- A word is covered by a state, up to a debt. -/
inductive Covered (dfa : SymbolDfa) (membersOf : Nat → List Nat) (s : State) (debt : Nat → Prop) :
    List Symbol → Prop where
  | accept {u : List Symbol} (haccept : s.accept = true) (hu : bytes u = []) :
    Covered dfa membersOf s debt u
  | step {entry : Symbol × Transition} {p v : List Symbol} {m : Nat}
    (hentry : entry ∈ s.transitions) (hne : p ≠ []) (hp : bytes p = bytes [entry.1])
    (hm : m ∈ membersOf entry.2.target) (hv : Accepts dfa m v) :
    Covered dfa membersOf s debt (p ++ v)
  | owed {p v : List Symbol} {m : Nat} (hne : p ≠ []) (hp : bytes p = []) (hm : debt m)
    (hv : Accepts dfa m v) : Covered dfa membersOf s debt (p ++ v)

/-- No debt. -/
def nothing (_ : Nat) : Prop := False

/-- A state covers what is accepted from some states, up to a debt. -/
def Complete (dfa : SymbolDfa) (membersOf : Nat → List Nat) (s : State) (starts debt : Nat → Prop) :
    Prop :=
  ∀ m, starts m → ∀ u, Accepts dfa m u → Covered dfa membersOf s debt u

/-- A state has all that another has: it accepts if the other does, and has a transition for each of
the other's transitions, to a state with at least the same members. -/
structure Dominates (membersOf membersOf' : Nat → List Nat) (s s' : State) : Prop where
  accept : s.accept = true → s'.accept = true
  edges : ∀ entry ∈ s.transitions, ∃ entry' ∈ s'.transitions, entry'.1 = entry.1 ∧
    ∀ m ∈ membersOf entry.2.target, m ∈ membersOf' entry'.2.target

variable {membersOf membersOf' : Nat → List Nat} {s s' : State} {debt debt' : Nat → Prop}

theorem Covered.mono {u : List Symbol} (h : Covered dfa membersOf s debt u)
    (hdom : Dominates membersOf membersOf' s s') (hdebt : ∀ m, debt m → debt' m) :
    Covered dfa membersOf' s' debt' u := by
  cases h with
  | accept haccept hu => exact Covered.accept (hdom.accept haccept) hu
  | step hentry hne hp hm hv =>
    obtain ⟨entry', hentry', hsymbol, hsub⟩ := hdom.edges _ hentry
    exact Covered.step hentry' hne (hp.trans (by rw [hsymbol])) (hsub _ hm) hv
  | owed hne hp hm hv => exact Covered.owed hne hp (hdebt _ hm) hv

/-- Actions in front of a word change nothing. -/
theorem Covered.append {p u : List Symbol} (h : Covered dfa membersOf s debt u)
    (hp : bytes p = []) : Covered dfa membersOf s debt (p ++ u) := by
  cases h with
  | accept haccept hu => exact Covered.accept haccept (by rw [Symbol.bytes_append, hp, hu]; rfl)
  | step hentry hne hp' hm hv =>
    rw [← List.append_assoc]
    refine Covered.step hentry (by simp [hne]) ?_ hm hv
    rw [Symbol.bytes_append, hp, hp', List.nil_append]
  | owed hne hp' hm hv =>
    rw [← List.append_assoc]
    refine Covered.owed (by simp [hne]) ?_ hm hv
    rw [Symbol.bytes_append, hp, hp']
    rfl

theorem Complete.mono {starts : Nat → Prop} (h : Complete dfa membersOf s starts debt)
    (hdom : Dominates membersOf membersOf' s s') (hdebt : ∀ m, debt m → debt' m) :
    Complete dfa membersOf' s' starts debt' :=
  fun m hm u hu => (h m hm u hu).mono hdom hdebt

/-- **A debt to what a state covers itself can be dropped.** -/
theorem Complete.settle {starts : Nat → Prop} (h : Complete dfa membersOf s starts debt)
    (hdebt : ∀ m, debt m → starts m) : Complete dfa membersOf s starts nothing := by
  -- induction on the length of the word: what is owed is the rest after a nonempty part
  have hlength : ∀ n m, starts m → ∀ u : List Symbol, u.length ≤ n → Accepts dfa m u →
      Covered dfa membersOf s nothing u := by
    intro n
    induction n with
    | zero =>
      intro m hm u hlen hu
      have hnil : u = [] := List.length_eq_zero_iff.mp (Nat.le_zero.mp hlen)
      cases h m hm u hu with
      | accept haccept hbytes => exact Covered.accept haccept hbytes
      | step _ hne => simp [hne] at hnil
      | owed hne => simp [hne] at hnil
    | succ n ih =>
      intro m hm u hlen hu
      cases h m hm u hu with
      | accept haccept hbytes => exact Covered.accept haccept hbytes
      | step hentry hne hp hm' hv => exact Covered.step hentry hne hp hm' hv
      | @owed p v m' hne hp hm' hv =>
        refine Covered.append (ih m' (hdebt m' hm') v ?_ hv) hp
        have hpos := List.length_pos_iff.mpr hne
        rw [List.length_append] at hlen
        omega
  exact fun m hm u hu => hlength u.length m hm u (Nat.le_refl _) hu

/-! ## The invariant -/

/-- Members and unions agree: different states stand for different sets of states at the start, and
the union states are those with a number that was not there at the start. A union state that is
still to fill has a greater number than the states it merges and those that are to be filled
before it. -/
structure Tables (dfa : SymbolDfa) (f : Folding) : Prop where
  collapsed_size : f.collapsed.size = f.states.size
  members_size : f.members.size = f.states.size
  le_size : dfa.size ≤ f.states.size
  original : ∀ id, id < dfa.size → f.membersOf id = [id]
  sorted : ∀ id, id < f.states.size → (f.membersOf id).Pairwise (· < ·)
  ne_nil : ∀ id, id < f.states.size → f.membersOf id ≠ []
  members_lt : ∀ id, ∀ m ∈ f.membersOf id, m < dfa.size
  injective : ∀ id id', id < f.states.size → id' < f.states.size →
    f.membersOf id = f.membersOf id' → id = id'
  lookup_iff : ∀ key id, f.unions.lookup key = some id ↔
    dfa.size ≤ id ∧ id < f.states.size ∧ f.membersOf id = key
  unfilled : ∀ task ∈ f.unfilled, dfa.size ≤ task.1 ∧ task.1 < f.states.size ∧
    task.2.1 < task.1 ∧ task.2.2 < task.1 ∧
    f.membersOf task.1 = Ascending.union (f.membersOf task.2.1) (f.membersOf task.2.2)
  ascending : f.unfilled.Pairwise fun task task' => task.1 < task'.1

/-- The invariant of folding, but for completeness. -/
structure Valid (dfa : SymbolDfa) (f : Folding) : Prop extends Tables dfa f where
  keys : ∀ id, AscendingKeys (f.state id).transitions
  target_lt : ∀ id, ∀ entry ∈ (f.state id).transitions, entry.2.target < f.states.size
  sound : ∀ id, StateSound dfa f.membersOf (f.membersOf id) (f.state id)
  empty : ∀ task ∈ f.unfilled, f.state task.1 = {}

/-- The union states still to fill. -/
def IsUnfilled (f : Folding) (id : Nat) : Prop := id ∈ f.unfilled.map Prod.fst

/-- Every state covers its members, but for those still to fill. -/
def AllComplete (dfa : SymbolDfa) (f : Folding) : Prop :=
  ∀ id, id < f.states.size → ¬ f.IsUnfilled id →
    Complete dfa f.membersOf (f.state id) (· ∈ f.membersOf id) nothing

variable {f f' : Folding}

theorem state_of_size_le {id : Nat} (h : f.states.size ≤ id) : f.state id = {} :=
  Arrays.getD_of_size_le h {}

theorem Tables.isCollapsed_of_size_le (h : Tables dfa f) {id : Nat} (hid : f.states.size ≤ id) :
    f.isCollapsed id = false :=
  Arrays.getD_of_size_le (h.collapsed_size ▸ hid) false

theorem Tables.lt_size_of_mem (h : Tables dfa f) {id m : Nat} (hm : m ∈ f.membersOf id) :
    id < f.states.size := by
  by_contra hge
  have hle : f.members.size ≤ id := h.members_size ▸ Nat.le_of_not_lt hge
  rw [membersOf, Arrays.getD_of_size_le hle] at hm
  simp at hm

theorem Tables.zero_lt (h : Tables dfa f) (hplain : dfa.Plain) : 0 < f.states.size :=
  Nat.lt_of_lt_of_le hplain.size_pos h.le_size

/-- Of the states, only their number matters. -/
theorem Tables.congr (h : Tables dfa f) (hsize : f'.states.size = f.states.size)
    (hcollapsed : f'.collapsed.size = f.collapsed.size) (hmembers : f'.members = f.members)
    (hunions : f'.unions = f.unions) (hunfilled : f'.unfilled = f.unfilled) : Tables dfa f' := by
  have hmembersOf : f'.membersOf = f.membersOf := by
    funext id
    rw [membersOf, hmembers, membersOf]
  constructor <;> simp only [hsize, hcollapsed, hmembers, hunions, hunfilled, hmembersOf]
  · exact h.collapsed_size
  · exact h.members_size
  · exact h.le_size
  · exact h.original
  · exact h.sorted
  · exact h.ne_nil
  · exact h.members_lt
  · exact h.injective
  · exact h.lookup_iff
  · exact h.unfilled
  · exact h.ascending

/-- There are always fewer states than sets of states at the start: no state stands for the empty
set. -/
theorem Tables.size_lt_setCount (h : Tables dfa f) : f.states.size < setCount dfa.size := by
  -- the empty list and the members of the states are a list of different ascending lists
  have hmem : ∀ set ∈ f.members.toList, ∃ id, id < f.states.size ∧ f.membersOf id = set := by
    intro set hset
    obtain ⟨id, hid, rfl⟩ := Array.mem_iff_getElem.mp (Array.mem_toList_iff.mp hset)
    refine ⟨id, h.members_size ▸ hid, ?_⟩
    rw [membersOf, Array.getD_eq_getD_getElem?, Array.getElem?_eq_getElem hid]
    rfl
  have hnil : [] ∉ f.members.toList := by
    intro hset
    obtain ⟨id, hid, heq⟩ := hmem [] hset
    exact h.ne_nil id hid heq
  show f.states.size + 1 ≤ setCount dfa.size
  rw [← h.members_size, ← Array.length_toList, ← List.length_cons (a := [])]
  refine Ascending.length_le_two_pow ?_ ?_ ?_
  · refine List.nodup_cons.mpr ⟨hnil, List.nodup_iff_injective_getElem.mpr ?_⟩
    rintro ⟨i, hi⟩ ⟨j, hj⟩ heq
    have hi' : i < f.members.size := by simpa using hi
    have hj' : j < f.members.size := by simpa using hj
    refine Fin.ext (h.injective i j (h.members_size ▸ hi') (h.members_size ▸ hj') ?_)
    simp only [membersOf, Array.getD_eq_getD_getElem?, Array.getElem?_eq_getElem hi',
      Array.getElem?_eq_getElem hj', Option.getD_some]
    simpa using heq
  · refine List.forall_mem_cons.mpr ⟨List.Pairwise.nil, fun set hset => ?_⟩
    obtain ⟨id, hid, rfl⟩ := hmem set hset
    exact h.sorted id hid
  · refine List.forall_mem_cons.mpr ⟨by simp, fun set hset => ?_⟩
    obtain ⟨id, -, rfl⟩ := hmem set hset
    exact h.members_lt id

theorem Tables.size_le_setCount (h : Tables dfa f) : f.states.size ≤ setCount dfa.size :=
  Nat.le_of_lt h.size_lt_setCount

/-- The invariant does not depend on what is counted and noted. -/
theorem Valid.withNotes (h : Valid dfa f) (folded : Nat) (merges : List (Symbol × Nat)) :
    Valid dfa { f with folded, merges } :=
  ⟨h.toTables.congr rfl rfl rfl rfl rfl, h.keys, h.target_lt, h.sound, h.empty⟩

/-! ## What steps leave as it is -/

/-- States other than the changed ones, and the members of all states, stay. -/
structure Frame (changed : Nat → Prop) (f f' : Folding) : Prop where
  size_le : f.states.size ≤ f'.states.size
  state_eq : ∀ id, id < f.states.size → ¬ changed id → f'.state id = f.state id
  members_eq : ∀ id, id < f.states.size → f'.membersOf id = f.membersOf id
  collapsed_eq : ∀ id, f'.isCollapsed id = f.isCollapsed id

theorem Frame.refl (changed : Nat → Prop) (f : Folding) : Frame changed f f :=
  ⟨Nat.le_refl _, fun _ _ _ => rfl, fun _ _ => rfl, fun _ => rfl⟩

theorem Frame.trans {changed changed' : Nat → Prop} {f'' : Folding} (h : Frame changed f f')
    (h' : Frame changed' f' f'')
    (hchanged : ∀ id, id < f.states.size → changed' id → changed id) : Frame changed f f'' where
  size_le := Nat.le_trans h.size_le h'.size_le
  state_eq id hid hnot := by
    rw [h'.state_eq id (Nat.lt_of_lt_of_le hid h.size_le) fun hc => hnot (hchanged id hid hc)]
    exact h.state_eq id hid hnot
  members_eq id hid := by
    rw [h'.members_eq id (Nat.lt_of_lt_of_le hid h.size_le), h.members_eq id hid]
  collapsed_eq id := by rw [h'.collapsed_eq, h.collapsed_eq]

/-- A state whose targets keep their members dominates itself. -/
theorem Frame.dominates {changed : Nat → Prop} (h : Frame changed f f') {s : State}
    (hs : ∀ entry ∈ s.transitions, entry.2.target < f.states.size) :
    Dominates f.membersOf f'.membersOf s s where
  accept haccept := haccept
  edges entry hentry := ⟨entry, hentry, rfl, fun m hm => by rwa [h.members_eq _ (hs entry hentry)]⟩

theorem Frame.stateSound {changed : Nat → Prop} (h : Frame changed f f') {s : State}
    {sources : List Nat} (hs : ∀ entry ∈ s.transitions, entry.2.target < f.states.size)
    (hsound : StateSound dfa f.membersOf sources s) :
    StateSound dfa f'.membersOf sources s where
  edges entry hentry := by
    rw [h.members_eq _ (hs entry hentry)]
    exact hsound.edges entry hentry
  entry := hsound.entry
  accept := hsound.accept

/-- A step that changes one state and may add union states, all of them still to fill. -/
structure Grows (id : Nat) (f f' : Folding) : Prop extends Frame (· = id) f f' where
  unfilled : ∃ added, f'.unfilled = f.unfilled ++ added ∧
    ∀ id, id ∈ added.map Prod.fst ↔ f.states.size ≤ id ∧ id < f'.states.size
  length_eq : f'.unfilled.length + f.states.size = f.unfilled.length + f'.states.size

theorem Grows.refl (id : Nat) (f : Folding) : Grows id f f :=
  ⟨Frame.refl _ f, ⟨[], by simp, by simp⟩, rfl⟩

theorem Grows.trans {id : Nat} {f'' : Folding} (h : Grows id f f') (h' : Grows id f' f'') :
    Grows id f f'' := by
  obtain ⟨added, hadded, hids⟩ := h.unfilled
  obtain ⟨added', hadded', hids'⟩ := h'.unfilled
  have hle := h.size_le
  have hle' := h'.size_le
  refine ⟨h.toFrame.trans h'.toFrame fun _ _ hid => hid, ⟨added ++ added', ?_, ?_⟩, ?_⟩
  · rw [hadded', hadded, List.append_assoc]
  · intro x
    rw [List.map_append, List.mem_append, hids, hids']
    omega
  · have h1 := h.length_eq
    have h2 := h'.length_eq
    omega

/-- States that are not to be filled after such a step were there before it, or are the one that
was changed. -/
theorem Grows.of_not_unfilled {id : Nat} (h : Grows id f f') {other : Nat}
    (hlt : other < f'.states.size) (hnot : ¬ f'.IsUnfilled other) :
    other < f.states.size ∧ ¬ f.IsUnfilled other := by
  obtain ⟨added, hadded, hids⟩ := h.unfilled
  rw [IsUnfilled, hadded, List.map_append, List.mem_append, not_or] at hnot
  refine ⟨?_, hnot.1⟩
  by_contra hge
  exact hnot.2 ((hids other).mpr ⟨Nat.le_of_not_lt hge, hlt⟩)

theorem Grows.isUnfilled {id : Nat} (h : Grows id f f') {other : Nat}
    (hlt : other < f.states.size) : f'.IsUnfilled other ↔ f.IsUnfilled other := by
  obtain ⟨added, hadded, hids⟩ := h.unfilled
  rw [IsUnfilled, hadded, List.map_append, List.mem_append, hids, IsUnfilled]
  constructor
  · rintro (hmem | hmem)
    · exact hmem
    · omega
  · exact Or.inl

/-- After such a step only the changed state needs a proof that it is complete. -/
theorem AllComplete.grows {id : Nat} (h : AllComplete dfa f) (hvalid : Valid dfa f)
    (hgrows : Grows id f f') (hid : ¬ f'.IsUnfilled id →
      Complete dfa f'.membersOf (f'.state id) (· ∈ f'.membersOf id) nothing) :
    AllComplete dfa f' := by
  intro other hlt hnot
  by_cases heq : other = id
  · subst heq
    exact hid hnot
  · obtain ⟨hlt', hnot'⟩ := hgrows.of_not_unfilled hlt hnot
    rw [hgrows.state_eq other hlt' heq, hgrows.members_eq other hlt']
    exact (h other hlt' hnot').mono (hgrows.dominates (hvalid.target_lt other)) fun _ hm => hm

/-! ## The start -/

theorem membersOf_start {id : Nat} (h : id < dfa.size) : (start dfa).membersOf id = [id] := by
  simp [membersOf, start, Array.getD_eq_getD_getElem?, h]

theorem membersOf_start_of_size_le {id : Nat} (h : dfa.size ≤ id) :
    (start dfa).membersOf id = [] :=
  Arrays.getD_of_size_le (by simpa [start] using h) []

theorem tables_start : Tables dfa (start dfa) where
  collapsed_size := by simp [start, size]
  members_size := by simp [start, size]
  le_size := Nat.le_refl _
  original _ := membersOf_start
  sorted id hid := by
    rw [membersOf_start hid]
    exact List.pairwise_singleton _ _
  ne_nil id hid := by
    rw [membersOf_start hid]
    simp
  members_lt id m hm := by
    by_cases hid : id < dfa.size
    · rw [membersOf_start hid, List.mem_singleton] at hm
      rwa [hm]
    · simp [membersOf_start_of_size_le (Nat.le_of_not_lt hid)] at hm
  injective id id' hid hid' heq := by
    rw [membersOf_start hid, membersOf_start hid'] at heq
    exact (List.cons.inj heq).1
  lookup_iff key id := by
    constructor
    · simp [start]
    · rintro ⟨hle, hlt, -⟩
      exact absurd hlt (Nat.not_lt.mpr hle)
  unfilled := by simp [start]
  ascending := List.Pairwise.nil

theorem mem_actionLabels {p x : Nat} {t : Transition}
    (h : (.action x, t) ∈ (dfa.state p).transitions) : x ∈ dfa.actionLabels := by
  have hp : p < dfa.size := by
    by_contra hge
    rw [SymbolDfa.state_of_size_le (Nat.le_of_not_lt hge)] at h
    simp at h
  rw [actionLabels, Ascending.mem_ofList, List.mem_flatMap]
  refine ⟨dfa.state p, ?_, List.mem_filterMap.mpr ⟨_, h, rfl⟩⟩
  rw [Array.mem_toList_iff]
  exact Array.mem_of_getElem? (Arrays.getElem?_eq_some_getD hp {})

theorem edgeSound_start {p : Nat} {entry : Symbol × Transition}
    (h : entry ∈ (dfa.state p).transitions) : EdgeSound dfa [p] [entry.2.target] entry := by
  obtain ⟨s, t⟩ := entry
  have hpath : Path dfa p [s] t.target := Path.cons h (Path.nil _)
  refine ⟨?_, ?_, ?_⟩
  · rintro x rfl
    exact mem_actionLabels h
  · intro m' hm'
    rw [List.mem_singleton.mp hm']
    refine ⟨p, List.mem_singleton_self p, [s], hpath, by simp, rfl, fun x hx => Or.inr ?_⟩
    exact (List.mem_singleton.mp hx).symm
  · rintro hplain x (hx | rfl)
    · rw [hplain.actions p _ h] at hx
      simp at hx
    · refine ⟨p, List.mem_singleton_self p, [.action x], _, hpath, Or.inl rfl, ?_⟩
      exact Symbol.mem_lastBlock_of_bytes_eq_nil [] rfl (List.mem_singleton_self _)

theorem valid_start (hrange : dfa.InRange) : Valid dfa (start dfa) where
  toTables := tables_start
  keys := hrange.keys
  target_lt := hrange.target_lt
  sound id := by
    by_cases hid : id < dfa.size
    · rw [membersOf_start hid]
      refine ⟨fun entry hentry => ?_, fun hplain x hx => ?_, fun haccept => ?_⟩
      · rw [membersOf_start (hrange.target_lt id entry hentry)]
        exact edgeSound_start hentry
      · have hnil : ((start dfa).state id).entry = [] := hplain.entry id
        rw [hnil] at hx
        simp at hx
      · exact ⟨id, List.mem_singleton_self id, [], [], accepts_nil_iff.mpr haccept, rfl,
          fun _ => rfl, by simp⟩
    · rw [state_of_size_le (Nat.le_of_not_lt hid)]
      exact stateSound_empty _ _
  empty := by simp [start]

theorem allComplete_start (hrange : dfa.InRange) : AllComplete dfa (start dfa) := by
  intro id hid _ m hm u hu
  rw [membersOf_start hid, List.mem_singleton] at hm
  subst hm
  cases u with
  | nil => exact Covered.accept (accepts_nil_iff.mp hu) rfl
  | cons s u =>
    obtain ⟨t, ht, hrest⟩ := accepts_cons_iff.mp hu
    refine Covered.step (p := [s]) ht (by simp) rfl ?_ hrest
    rw [membersOf_start (hrange.target_lt m _ ht)]
    exact List.mem_singleton_self _

end ActionRegex.SymbolDfa.Folding
