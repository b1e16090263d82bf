import ActionRegex.Pattern.Parser
import Mathlib.Data.List.TakeWhile
import Mathlib.Tactic.SplitIfs

/-!
# Where action blocks are

A pattern can be followed byte by byte, without making items of it: it is enough to know whether the
next byte belongs to quoted text, to a class, to an action block or to none of these, and whether it
is escaped (`Stand`). The reader of each kind of item leads from the pattern back to the pattern,
and only the reader of action blocks passes through states inside a block (`reads_readItem`). So
following a pattern tells where its action blocks are (`Lexed.locates`).
-/

namespace ActionRegex.Pattern

/-! ## Following a pattern -/

/-- What a byte of a pattern is part of. -/
inductive Spot where
  | pattern
  | quoted (delimiter : UInt8)
  | bracketed
  /-- The code of an action block, with `depth` braces open inside it. -/
  | block (depth : Nat)
  /-- A literal in an action block. -/
  | literal (depth : Nat) (delimiter : UInt8)
  deriving DecidableEq

/-- How a byte is read: with a meaning of its own, after a backslash, or after a backslash and the
letter for control characters. -/
inductive Mode where
  | own
  | escaped
  | control
  deriving DecidableEq

/-- What is known of a pattern before its next byte. -/
structure Stand where
  spot : Spot
  mode : Mode := .own
  deriving DecidableEq

/-- Whether a byte is part of an action block. -/
def Spot.inAction : Spot → Bool
  | .block _ | .literal _ _ => true
  | _ => false

/-- What a byte with a meaning of its own leads to; `rest` follows it. -/
def Spot.read (rest : Bytes) : Spot → UInt8 → Stand
  | .pattern, b =>
    if b = Ascii.backslash then ⟨.pattern, .escaped⟩
    else if b = Ascii.quote ∨ b = Ascii.doubleQuote then ⟨.quoted b, .own⟩
    else if b = Ascii.leftBracket then ⟨.bracketed, .own⟩
    else if b = Ascii.leftBrace ∧ startsBounds rest = false then ⟨.block 0, .own⟩
    else ⟨.pattern, .own⟩
  | .quoted delimiter, b =>
    if b = Ascii.backslash then ⟨.quoted delimiter, .escaped⟩
    else if b = delimiter then ⟨.pattern, .own⟩
    else ⟨.quoted delimiter, .own⟩
  | .bracketed, b =>
    if b = Ascii.rightBracket then ⟨.pattern, .own⟩
    else if b = Ascii.backslash then ⟨.bracketed, .escaped⟩
    else ⟨.bracketed, .own⟩
  | .block depth, b =>
    if b = Ascii.leftBrace then ⟨.block (depth + 1), .own⟩
    else if b = Ascii.rightBrace then
      if depth = 0 then ⟨.pattern, .own⟩ else ⟨.block (depth - 1), .own⟩
    else if b = Ascii.doubleQuote ∨ b = Ascii.quote then ⟨.literal depth b, .own⟩
    else ⟨.block depth, .own⟩
  | .literal depth delimiter, b =>
    if b = Ascii.backslash then ⟨.literal depth delimiter, .escaped⟩
    else if b = delimiter then ⟨.block depth, .own⟩
    else ⟨.literal depth delimiter, .own⟩

namespace Stand

/-- What a byte leads to. An action block knows no control characters. -/
def step (rest : Bytes) (stand : Stand) (b : UInt8) : Stand :=
  match stand.mode with
  | .own => stand.spot.read rest b
  | .escaped =>
    if b = Ascii.ofChar 'c' ∧ stand.spot.inAction = false then ⟨stand.spot, .control⟩
    else ⟨stand.spot, .own⟩
  | .control => ⟨stand.spot, .own⟩

/-- What bytes lead to when `rest` follows them. -/
def run (stand : Stand) : Bytes → Bytes → Stand
  | [], _ => stand
  | b :: u, rest => (stand.step (u ++ rest) b).run u rest

theorem run_append (stand : Stand) (u w rest : Bytes) :
    stand.run (u ++ w) rest = (stand.run u (w ++ rest)).run w rest := by
  induction u generalizing stand with
  | nil => rfl
  | cons b u ih => rw [List.cons_append, run, run, ih, List.append_assoc]

/-- The bytes from one cursor to the next lead from one stand to another, and in between they are
inside an action block all the time, or never. -/
structure Passes (inside : Bool) (s t : Stand) (u : Bytes) (cursor next : Cursor) : Prop where
  rest : cursor.rest = u ++ next.rest
  pos : next.pos = cursor.pos + u.length
  run_eq : s.run u next.rest = t
  between : ∀ k, 0 < k → k < u.length →
    (s.run (u.take k) (u.drop k ++ next.rest)).spot.inAction = inside

/-- A reader that went from one cursor to the next passed some bytes. -/
def Reads (inside : Bool) (s t : Stand) (cursor next : Cursor) : Prop :=
  ∃ u, Passes inside s t u cursor next

variable {inside : Bool} {s t w : Stand} {c₁ c₂ c₃ : Cursor}

theorem Reads.refl : Reads inside s s c₁ c₁ := ⟨[], rfl, rfl, rfl, by simp⟩

theorem Reads.byte {b : UInt8} {rest : Bytes} (h : s.step rest b = t) (pos : Nat) :
    Reads inside s t ⟨pos, b :: rest⟩ ⟨pos + 1, rest⟩ := by
  refine ⟨[b], rfl, rfl, h, fun k hpos hlt => ?_⟩
  simp at hlt
  omega

theorem Reads.trans (h : Reads inside s t c₁ c₂) (ht : t.spot.inAction = inside)
    (h' : Reads inside t w c₂ c₃) : Reads inside s w c₁ c₃ := by
  obtain ⟨u, hu⟩ := h
  obtain ⟨v, hv⟩ := h'
  refine ⟨u ++ v, ?_, ?_, ?_, fun k hpos hlt => ?_⟩
  · rw [hu.rest, hv.rest, List.append_assoc]
  · rw [hv.pos, hu.pos, List.length_append, Nat.add_assoc]
  · rw [run_append, ← hv.rest, hu.run_eq, hv.run_eq]
  · rw [List.length_append] at hlt
    -- before the cursor in the middle, at it, or behind it
    rcases Nat.lt_trichotomy k u.length with hk | rfl | hk
    · rw [List.take_append_of_le_length (Nat.le_of_lt hk),
        List.drop_append_of_le_length (Nat.le_of_lt hk),
        List.append_assoc, ← hv.rest]
      exact hu.between k hpos hk
    · rw [List.take_left, List.drop_left, ← hv.rest, hu.run_eq]
      exact ht
    · obtain ⟨m, rfl⟩ : ∃ m, k = u.length + m := ⟨k - u.length, by omega⟩
      rw [List.take_length_add_append, List.drop_length_add_append, run_append,
        ← List.append_assoc, List.take_append_drop, ← hv.rest, hu.run_eq]
      exact hv.between m (by omega) (by omega)

/-- Bytes that lead nowhere. -/
theorem Reads.keep (hs : s.spot.inAction = inside) {u : Bytes}
    (hu : ∀ b ∈ u, ∀ rest, s.step rest b = s) (pos : Nat) (rest : Bytes) :
    Reads inside s s ⟨pos, u ++ rest⟩ ⟨pos + u.length, rest⟩ := by
  induction u generalizing pos with
  | nil => exact .refl
  | cons b u ih =>
    have hrest := ih (fun c hc => hu c (List.mem_cons_of_mem _ hc)) (pos + 1)
    rw [List.length_cons, ← Nat.add_assoc, Nat.add_right_comm]
    exact (Reads.byte (hu b List.mem_cons_self (u ++ rest)) pos).trans hs hrest

end Stand

open Stand (Reads)

/-! ## Bytes without a meaning of their own -/

/-- A byte that leads nowhere in the pattern, in quoted text and in a class. -/
structure Inert (b : UInt8) : Prop where
  backslash : b ≠ Ascii.backslash
  quote : b ≠ Ascii.quote
  doubleQuote : b ≠ Ascii.doubleQuote
  leftBracket : b ≠ Ascii.leftBracket
  rightBracket : b ≠ Ascii.rightBracket
  leftBrace : b ≠ Ascii.leftBrace

/-- What holds of none of the bytes with a meaning holds of inert bytes only. -/
theorem inert_of {p : UInt8 → Bool} (hbackslash : p Ascii.backslash = false)
    (hquote : p Ascii.quote = false) (hdoubleQuote : p Ascii.doubleQuote = false)
    (hleftBracket : p Ascii.leftBracket = false) (hrightBracket : p Ascii.rightBracket = false)
    (hleftBrace : p Ascii.leftBrace = false) {b : UInt8} (h : p b = true) : Inert b := by
  constructor
  all_goals
    rintro rfl
    simp_all

theorem inert_of_isWordByte {b : UInt8} (h : Ascii.isWordByte b = true) : Inert b :=
  inert_of (by decide) (by decide) (by decide) (by decide) (by decide) (by decide) h

theorem inert_of_isDigit {b : UInt8} (h : Ascii.isDigit b = true) : Inert b :=
  inert_of (by decide) (by decide) (by decide) (by decide) (by decide) (by decide) h

theorem inert_of_hexValue? {b value : UInt8} (h : Ascii.hexValue? b = some value) : Inert b :=
  inert_of (p := fun b => (Ascii.hexValue? b).isSome) (by decide) (by decide) (by decide)
    (by decide) (by decide) (by decide) (by simp [h])

theorem inert_of_isBlank {b : UInt8} (h : Ascii.isBlank b = true) : Inert b :=
  inert_of (by decide) (by decide) (by decide) (by decide) (by decide) (by decide) h

/-- The spots where patterns have escapes. -/
inductive Spot.HasEscapes : Spot → Prop
  | pattern : Spot.pattern.HasEscapes
  | quoted {delimiter : UInt8} (h : delimiter = Ascii.quote ∨ delimiter = Ascii.doubleQuote) :
    (Spot.quoted delimiter).HasEscapes
  | bracketed : Spot.bracketed.HasEscapes

theorem Spot.HasEscapes.inAction_eq {spot : Spot} (h : spot.HasEscapes) :
    spot.inAction = false := by
  cases h with
  | pattern => rfl
  | quoted => rfl
  | bracketed => rfl

theorem Spot.HasEscapes.step_of_inert {spot : Spot} (h : spot.HasEscapes) {b : UInt8}
    (hb : Inert b) (rest : Bytes) : Stand.step rest ⟨spot, .own⟩ b = ⟨spot, .own⟩ := by
  cases h with
  | pattern =>
    simp [Stand.step, Spot.read, hb.backslash, hb.quote, hb.doubleQuote, hb.leftBracket,
      hb.leftBrace]
  | quoted h =>
    rcases h with rfl | rfl
    · simp [Stand.step, Spot.read, hb.backslash, hb.quote]
    · simp [Stand.step, Spot.read, hb.backslash, hb.doubleQuote]
  | bracketed => simp [Stand.step, Spot.read, hb.backslash, hb.rightBracket]

theorem Spot.HasEscapes.reads_inert {spot : Spot} (h : spot.HasEscapes) {u : Bytes}
    (hu : ∀ b ∈ u, Inert b) (pos : Nat) (rest : Bytes) :
    Reads false ⟨spot, .own⟩ ⟨spot, .own⟩ ⟨pos, u ++ rest⟩ ⟨pos + u.length, rest⟩ :=
  .keep h.inAction_eq (fun b hb rest => h.step_of_inert (hu b hb) rest) pos rest

/-! ## Escapes -/

theorem Stand.step_escaped {spot : Spot} {b : UInt8} (hb : b ≠ Ascii.ofChar 'c') (rest : Bytes) :
    Stand.step rest ⟨spot, .escaped⟩ b = ⟨spot, .own⟩ := by
  simp [Stand.step, hb]

theorem reads_readEscapedByte {spot : Spot} (hspot : spot.HasEscapes) {start : Nat} {input : Bytes}
    {value : UInt8} {next : Cursor} (h : readEscapedByte start input = .ok (value, next)) :
    Reads false ⟨spot, .escaped⟩ ⟨spot, .own⟩ ⟨start + 1, input⟩ next := by
  have hletter : ∀ {b : UInt8} {rest : Bytes}, b ≠ Ascii.ofChar 'c' →
      Reads false ⟨spot, .escaped⟩ ⟨spot, .own⟩ ⟨start + 1, b :: rest⟩ ⟨start + 2, rest⟩ := by
    intro b rest hb
    exact .byte (Stand.step_escaped hb rest) (start + 1)
  unfold readEscapedByte at h
  split at h
  · simp at h
  · next b rest =>
    split_ifs at h with hhigh hn hr ht he hx hc
    · obtain ⟨-, rfl⟩ := Prod.mk.inj (Except.ok.inj h)
      exact hletter (by rw [hn]; decide)
    · obtain ⟨-, rfl⟩ := Prod.mk.inj (Except.ok.inj h)
      exact hletter (by rw [hr]; decide)
    · obtain ⟨-, rfl⟩ := Prod.mk.inj (Except.ok.inj h)
      exact hletter (by rw [ht]; decide)
    · obtain ⟨-, rfl⟩ := Prod.mk.inj (Except.ok.inj h)
      exact hletter (by rw [he]; decide)
    · split at h
      · next hi lo rest =>
        split at h
        · next hhi hlo =>
          obtain ⟨-, rfl⟩ := Prod.mk.inj (Except.ok.inj h)
          refine (hletter (by rw [hx]; decide)).trans hspot.inAction_eq
            (hspot.reads_inert (u := [hi, lo]) ?_ (start + 2) rest)
          intro b hb
          rcases List.mem_cons.mp hb with rfl | hb
          · exact inert_of_hexValue? hhi
          · rw [List.mem_singleton.mp hb]
            exact inert_of_hexValue? hlo
        · simp at h
      · simp at h
    · split at h
      · simp at h
      · next control rest =>
        obtain ⟨-, rfl⟩ := Prod.mk.inj (Except.ok.inj h)
        have hfirst : Stand.step (control :: rest) ⟨spot, .escaped⟩ b = ⟨spot, .control⟩ := by
          simp [Stand.step, hc, hspot.inAction_eq]
        exact (Reads.byte hfirst (start + 1)).trans hspot.inAction_eq (.byte rfl (start + 2))
    · obtain ⟨-, rfl⟩ := Prod.mk.inj (Except.ok.inj h)
      exact hletter hc

theorem reads_readEscape {spot : Spot} (hspot : spot.HasEscapes) {start : Nat} {input : Bytes}
    {result : UInt8 ⊕ ByteSet} {next : Cursor} (h : readEscape start input = .ok (result, next)) :
    Reads false ⟨spot, .escaped⟩ ⟨spot, .own⟩ ⟨start + 1, input⟩ next := by
  unfold readEscape at h
  split at h
  · next set hset =>
    obtain ⟨-, rfl⟩ := Prod.mk.inj (Except.ok.inj h)
    cases input with
    | nil => simp at hset
    | cons b rest =>
      have hb : b ≠ Ascii.ofChar 'c' := by
        rintro rfl
        have hnone : ByteSet.ofEscape? (Ascii.ofChar 'c') = none := by decide
        simp [hnone] at hset
      exact .byte (Stand.step_escaped hb rest) (start + 1)
  · split at h
    · next hescape =>
      obtain ⟨-, rfl⟩ := Prod.mk.inj (Except.ok.inj h)
      exact reads_readEscapedByte hspot hescape
    · simp at h

/-! ## Quoted text and classes -/

theorem reads_readQuoted {delimiter : UInt8} {start : Nat} {cursor next : Cursor}
    {read bytes : Bytes} (hdelimiter : delimiter = Ascii.quote ∨ delimiter = Ascii.doubleQuote)
    (h : readQuoted delimiter start cursor read = .ok (bytes, next)) :
    Reads false ⟨.quoted delimiter, .own⟩ ⟨.pattern, .own⟩ cursor next := by
  fun_induction readQuoted delimiter start cursor read with
  | case1 => simp at h
  | case2 cursor read rest hrest =>
    obtain ⟨-, rfl⟩ := Prod.mk.inj (Except.ok.inj h)
    obtain ⟨pos, _⟩ := cursor
    obtain rfl := hrest
    have hne : delimiter ≠ Ascii.backslash := by
      rcases hdelimiter with rfl | rfl
      · decide
      · decide
    exact .byte (by simp [Stand.step, Spot.read, hne]) pos
  | case3 => simp at h
  | case4 cursor read rest value next' hescape hrest hne ih =>
    obtain ⟨pos, _⟩ := cursor
    obtain rfl := hrest
    have hbackslash : Stand.step rest ⟨.quoted delimiter, .own⟩ Ascii.backslash =
        ⟨.quoted delimiter, .escaped⟩ := by
      simp [Stand.step, Spot.read]
    exact ((Reads.byte hbackslash pos).trans rfl
      (reads_readEscapedByte (.quoted hdelimiter) hescape)).trans rfl (ih h)
  | case5 cursor read b rest hrest hne hbackslash ih =>
    obtain ⟨pos, _⟩ := cursor
    obtain rfl := hrest
    have hkeep : Stand.step rest ⟨.quoted delimiter, .own⟩ b = ⟨.quoted delimiter, .own⟩ := by
      simp [Stand.step, Spot.read, hne, hbackslash]
    exact (Reads.byte hkeep pos).trans rfl (ih h)

section Classes

theorem step_bracketed {b : UInt8} (hbracket : b ≠ Ascii.rightBracket)
    (hbackslash : b ≠ Ascii.backslash) (rest : Bytes) :
    Stand.step rest ⟨.bracketed, .own⟩ b = ⟨.bracketed, .own⟩ := by
  simp [Stand.step, Spot.read, hbracket, hbackslash]

theorem step_bracketed_backslash (rest : Bytes) :
    Stand.step rest ⟨.bracketed, .own⟩ Ascii.backslash = ⟨.bracketed, .escaped⟩ := rfl

theorem reads_readRange {itemStart : Nat} {first : UInt8} {cursor next : Cursor} {set : ByteSet}
    (h : readRange itemStart first cursor = .ok (set, next)) :
    Reads false ⟨.bracketed, .own⟩ ⟨.bracketed, .own⟩ cursor next := by
  obtain ⟨pos, bytes⟩ := cursor
  unfold readRange at h
  simp only at h
  split at h
  · next minus last rest =>
    split_ifs at h with hrange hlast
    · obtain ⟨rfl, -⟩ := hrange
      have hminus : Stand.step (last :: rest) ⟨.bracketed, .own⟩ Ascii.minus = ⟨.bracketed, .own⟩ :=
        step_bracketed (by decide) (by decide) _
      split at h
      · simp at h
      · next value next' hescape =>
        rw [closeRange_rest h]
        subst hlast
        exact ((Reads.byte hminus pos).trans rfl
          (.byte (step_bracketed_backslash rest) (pos + 1))).trans rfl
          (reads_readEscapedByte .bracketed hescape)
    · obtain ⟨rfl, hbracket⟩ := hrange
      have hminus : Stand.step (last :: rest) ⟨.bracketed, .own⟩ Ascii.minus = ⟨.bracketed, .own⟩ :=
        step_bracketed (by decide) (by decide) _
      rw [closeRange_rest h]
      exact (Reads.byte hminus pos).trans rfl
        (.byte (step_bracketed hbracket hlast rest) (pos + 1))
    · obtain ⟨-, rfl⟩ := Prod.mk.inj (Except.ok.inj h)
      exact .refl
  · obtain ⟨-, rfl⟩ := Prod.mk.inj (Except.ok.inj h)
    exact .refl

theorem reads_map_readRange {itemStart : Nat} {first : UInt8} {cursor next : Cursor}
    {set : Option ByteSet}
    (h : (readRange itemStart first cursor).map (Prod.map some id) = .ok (set, next)) :
    Reads false ⟨.bracketed, .own⟩ ⟨.bracketed, .own⟩ cursor next ∧ set.isSome = true := by
  cases hrange : readRange itemStart first cursor with
  | error e => simp [hrange, Except.map] at h
  | ok result =>
    obtain ⟨members, next'⟩ := result
    rw [hrange] at h
    obtain ⟨rfl, rfl⟩ := Prod.mk.inj (Except.ok.inj h)
    exact ⟨reads_readRange hrange, rfl⟩

/-- An item of a class stays in the class, and the closing bracket leaves it. -/
theorem reads_readClassItem {start : Nat} {cursor next : Cursor} {set : Option ByteSet}
    (h : readClassItem start cursor = .ok (set, next)) :
    Reads false ⟨.bracketed, .own⟩ ⟨if set.isSome then .bracketed else .pattern, .own⟩ cursor
      next := by
  obtain ⟨pos, bytes⟩ := cursor
  unfold readClassItem at h
  simp only at h
  split at h
  · simp at h
  · next b rest =>
    split_ifs at h with hbracket hdot hbackslash
    · obtain ⟨rfl, rfl⟩ := Prod.mk.inj (Except.ok.inj h)
      subst hbracket
      exact .byte (by rfl) pos
    · obtain ⟨rfl, rfl⟩ := Prod.mk.inj (Except.ok.inj h)
      subst hdot
      exact .byte (by rfl) pos
    · subst hbackslash
      have hescaped := step_bracketed_backslash rest
      split at h
      · simp at h
      · next members next' hescape =>
        obtain ⟨rfl, rfl⟩ := Prod.mk.inj (Except.ok.inj h)
        exact (Reads.byte hescaped pos).trans rfl (reads_readEscape .bracketed hescape)
      · next first next' hescape =>
        obtain ⟨hrange, hsome⟩ := reads_map_readRange h
        rw [hsome]
        exact ((Reads.byte hescaped pos).trans rfl (reads_readEscape .bracketed hescape)).trans rfl
          hrange
    · obtain ⟨hrange, hsome⟩ := reads_map_readRange h
      rw [hsome]
      exact (Reads.byte (step_bracketed hbracket hbackslash rest) pos).trans rfl hrange

theorem reads_readClassItems {start : Nat} {cursor next : Cursor} {set members : ByteSet}
    (h : readClassItems start cursor set = .ok (members, next)) :
    Reads false ⟨.bracketed, .own⟩ ⟨.pattern, .own⟩ cursor next := by
  fun_induction readClassItems start cursor set with
  | case1 => simp at h
  | case2 cursor set next' hitem =>
    obtain ⟨-, rfl⟩ := Prod.mk.inj (Except.ok.inj h)
    exact reads_readClassItem hitem
  | case3 cursor set members next' hitem ih => exact (reads_readClassItem hitem).trans rfl (ih h)

theorem closeClass_eq {start : Nat} {set : ByteSet} {cursor next : Cursor} {item : Item}
    (h : closeClass start set cursor = .ok (item, next)) : item = .oneOf set ∧ next = cursor := by
  unfold closeClass at h
  split at h
  · simp at h
  · obtain ⟨rfl, rfl⟩ := Prod.mk.inj (Except.ok.inj h)
    exact ⟨rfl, rfl⟩

theorem reads_readClass {pos : Nat} {rest : Bytes} {item : Item} {next : Cursor}
    (h : readClass pos rest = .ok (item, next)) :
    (∃ set, item = .oneOf set) ∧
      Reads false ⟨.pattern, .own⟩ ⟨.pattern, .own⟩ ⟨pos, Ascii.leftBracket :: rest⟩ next := by
  have hopen : Reads false ⟨.pattern, .own⟩ ⟨.bracketed, .own⟩ ⟨pos, Ascii.leftBracket :: rest⟩
      ⟨pos + 1, rest⟩ := .byte (by rfl) pos
  have hfirst : Reads false ⟨.bracketed, .own⟩ ⟨.bracketed, .own⟩ ⟨pos + 1, rest⟩
      (firstItem pos rest) := by
    unfold firstItem
    split
    · next hnegated =>
      cases rest with
      | nil => exact absurd hnegated (by decide)
      | cons b rest =>
        obtain rfl : b = Ascii.caret := by simpa [isNegated] using hnegated
        exact .byte (by rfl) (pos + 1)
    · exact .refl
  unfold readClass at h
  split at h
  · simp at h
  · next members next' hitems =>
    obtain ⟨rfl, rfl⟩ := closeClass_eq h
    exact ⟨⟨_, rfl⟩, (hopen.trans rfl hfirst).trans rfl (reads_readClassItems hitems)⟩

end Classes

/-! ## Action blocks -/

/-- Where a reader of an action block stands. -/
def BlockState.stand (depth : Nat) : BlockState → Stand
  | .code => ⟨.block depth, .own⟩
  | .literal delimiter => ⟨.literal depth delimiter, .own⟩
  | .escaped delimiter => ⟨.literal depth delimiter, .escaped⟩

theorem BlockState.inAction_stand (state : BlockState) (depth : Nat) :
    (state.stand depth).spot.inAction = true := by
  cases state with
  | code => rfl
  | literal => rfl
  | escaped => rfl

/-- The bytes of a block, up to the brace that closes it, which is the last of `m + 1` bytes. -/
def ReadsBlock (s : Stand) (pos : Nat) (bytes : Bytes) (m : Nat) : Prop :=
  Reads true s ⟨.pattern, .own⟩ ⟨pos, bytes⟩ ⟨pos + m + 1, bytes.drop (m + 1)⟩

/-- A byte that stays in the block, and the rest of the block. -/
theorem ReadsBlock.cons {state : BlockState} {s : Stand} {depth pos count n : Nat} {b : UInt8}
    {rest : Bytes} (hstep : s.step rest b = state.stand depth)
    (h : ∃ m, n = count + 1 + m ∧ ReadsBlock (state.stand depth) (pos + 1) rest m) :
    ∃ m, n = count + m ∧ ReadsBlock s pos (b :: rest) m := by
  obtain ⟨m, rfl, hreads⟩ := h
  refine ⟨m + 1, by omega, ?_⟩
  have hpos : pos + (m + 1) + 1 = pos + 1 + m + 1 := by omega
  rw [ReadsBlock, List.drop_succ_cons, hpos]
  exact (Reads.byte hstep pos).trans (state.inAction_stand depth) hreads

theorem reads_blockLength {state : BlockState} {depth count n : Nat} {bytes : Bytes}
    (h : blockLength state depth count bytes = some n) (pos : Nat) :
    ∃ m, n = count + m ∧ ReadsBlock (state.stand depth) pos bytes m := by
  fun_induction blockLength state depth count bytes generalizing pos with
  | case1 => simp at h
  | case2 depth count rest ih => exact ReadsBlock.cons (by rfl) (ih h (pos + 1))
  | case3 count rest =>
    obtain rfl := Option.some.inj h
    exact ⟨0, rfl, .byte (by rfl) pos⟩
  | case4 depth count rest hdepth _ ih =>
    refine ReadsBlock.cons ?_ (ih h (pos + 1))
    show (if depth = 0 then _ else _) = _
    rw [if_neg hdepth]
    rfl
  | case5 depth count b rest hleft hright hquote ih =>
    refine ReadsBlock.cons ?_ (ih h (pos + 1))
    simp [Stand.step, BlockState.stand, Spot.read, hleft, hright, hquote]
  | case6 depth count b rest hleft hright hquote ih =>
    refine ReadsBlock.cons ?_ (ih h (pos + 1))
    simp [Stand.step, BlockState.stand, Spot.read, hleft, hright, hquote]
  | case7 delimiter depth count rest ih => exact ReadsBlock.cons (by rfl) (ih h (pos + 1))
  | case8 depth count b rest hbackslash ih =>
    refine ReadsBlock.cons ?_ (ih h (pos + 1))
    simp [Stand.step, BlockState.stand, Spot.read, hbackslash]
  | case9 delimiter depth count b rest hbackslash hne ih =>
    refine ReadsBlock.cons ?_ (ih h (pos + 1))
    simp [Stand.step, BlockState.stand, Spot.read, hbackslash, hne]
  | case10 delimiter depth count b rest ih =>
    refine ReadsBlock.cons ?_ (ih h (pos + 1))
    simp [Stand.step, BlockState.stand, Spot.inAction]

theorem reads_readAction {pos : Nat} {rest : Bytes} {item : Item} {next : Cursor}
    (hbounds : startsBounds rest = false) (h : readAction pos rest = .ok (item, next)) :
    (∃ text, item = .action text) ∧
      Reads true ⟨.pattern, .own⟩ ⟨.pattern, .own⟩ ⟨pos, Ascii.leftBrace :: rest⟩ next := by
  unfold readAction at h
  split at h
  · simp at h
  · next n hlength =>
    obtain ⟨rfl, rfl⟩ := Prod.mk.inj (Except.ok.inj h)
    obtain ⟨m, rfl, hblock⟩ := reads_blockLength hlength (pos + 1)
    have hopen : Stand.step rest ⟨.pattern, .own⟩ Ascii.leftBrace = BlockState.code.stand 0 := by
      simp [Stand.step, Spot.read, hbounds, Ascii.leftBrace, Ascii.backslash, Ascii.quote,
        Ascii.doubleQuote, Ascii.leftBracket, BlockState.stand]
    have hpos : pos + (0 + m) + 2 = pos + 1 + m + 1 := by omega
    rw [hpos, Nat.zero_add]
    exact ⟨⟨_, rfl⟩, (Reads.byte hopen pos).trans rfl hblock⟩

/-! ## Repetitions and names -/

theorem readBound_eq {start : Nat} {cursor next : Cursor} {bound : Option Nat}
    (h : readBound start cursor = .ok (bound, next)) :
    ∃ digits, cursor.rest = digits ++ next.rest ∧ next.pos = cursor.pos + digits.length ∧
      ∀ b ∈ digits, Ascii.isDigit b = true := by
  unfold readBound at h
  simp only at h
  split_ifs at h
  · obtain ⟨-, rfl⟩ := Prod.mk.inj (Except.ok.inj h)
    exact ⟨[], rfl, rfl, by simp⟩
  · obtain ⟨-, rfl⟩ := Prod.mk.inj (Except.ok.inj h)
    exact ⟨_, (List.takeWhile_append_dropWhile).symm, rfl, fun b hb => List.mem_takeWhile_imp hb⟩

theorem reads_readBound {start : Nat} {cursor next : Cursor} {bound : Option Nat}
    (h : readBound start cursor = .ok (bound, next)) :
    Reads false ⟨.pattern, .own⟩ ⟨.pattern, .own⟩ cursor next := by
  obtain ⟨pos, bytes⟩ := cursor
  obtain ⟨pos', rest⟩ := next
  obtain ⟨digits, hrest, hpos, hdigits⟩ := readBound_eq h
  simp only at hrest hpos
  rw [hrest, hpos]
  exact Spot.HasEscapes.pattern.reads_inert (fun b hb => inert_of_isDigit (hdigits b hb)) pos rest

theorem reads_readClosingBrace {start : Nat} {item item' : Item} {cursor next : Cursor}
    (h : readClosingBrace start item cursor = .ok (item', next)) :
    Reads false ⟨.pattern, .own⟩ ⟨.pattern, .own⟩ cursor next ∧ item' = item := by
  obtain ⟨pos, bytes⟩ := cursor
  unfold readClosingBrace at h
  split at h
  · next hbrace =>
    obtain ⟨rfl, rfl⟩ := Prod.mk.inj (Except.ok.inj h)
    cases bytes with
    | nil => simp at hbrace
    | cons b rest =>
      obtain rfl := Option.some.inj hbrace
      exact ⟨.byte (by rfl) pos, rfl⟩
  · simp at h

theorem reads_readRepetition {pos : Nat} {rest : Bytes} {item : Item} {next : Cursor}
    (hbounds : startsBounds rest = true) (h : readRepetition pos rest = .ok (item, next)) :
    (∃ min max, item = .repetition min max) ∧
      Reads false ⟨.pattern, .own⟩ ⟨.pattern, .own⟩ ⟨pos, Ascii.leftBrace :: rest⟩ next := by
  have hopen : Stand.step rest ⟨.pattern, .own⟩ Ascii.leftBrace = ⟨.pattern, .own⟩ := by
    simp [Stand.step, Spot.read, hbounds, Ascii.leftBrace, Ascii.backslash, Ascii.quote,
      Ascii.doubleQuote, Ascii.leftBracket]
  unfold readRepetition at h
  split at h
  · simp at h
  · next min cursor hmin =>
    have hfirst := (Reads.byte hopen pos).trans rfl (reads_readBound hmin)
    obtain ⟨pos', bytes⟩ := cursor
    split at h
    · next hcomma =>
      cases bytes with
      | nil => simp at hcomma
      | cons b bytes =>
        obtain rfl := Option.some.inj hcomma
        split at h
        · simp at h
        · next max cursor' hmax =>
          obtain ⟨hclosing, rfl⟩ := reads_readClosingBrace h
          have hcommaReads : Reads false ⟨.pattern, .own⟩ ⟨.pattern, .own⟩
              ⟨pos', Ascii.comma :: bytes⟩ ⟨pos' + 1, bytes⟩ := .byte (by rfl) pos'
          exact ⟨⟨_, _, rfl⟩, ((hfirst.trans rfl hcommaReads).trans rfl
            (reads_readBound hmax)).trans rfl hclosing⟩
    · obtain ⟨hclosing, rfl⟩ := reads_readClosingBrace h
      exact ⟨⟨_, _, rfl⟩, hfirst.trans rfl hclosing⟩

/-! ## Items -/

/-- Whether an item is an action block. -/
def Item.isAction : Item → Bool
  | .action _ => true
  | _ => false

theorem inert_of_ofPunctuation? {b : UInt8} {item : Item} (h : ofPunctuation? b = some item) :
    Inert b ∧ item.isAction = false := by
  refine ⟨inert_of (p := fun b => (ofPunctuation? b).isSome) (by decide) (by decide) (by decide)
    (by decide) (by decide) (by decide) (by simp [h]), ?_⟩
  unfold ofPunctuation? at h
  split_ifs at h
  all_goals
    obtain rfl := Option.some.inj h
    rfl

theorem reads_inert_byte {b : UInt8} (hb : Inert b) (pos : Nat) (rest : Bytes) :
    Reads false ⟨.pattern, .own⟩ ⟨.pattern, .own⟩ ⟨pos, b :: rest⟩ ⟨pos + 1, rest⟩ :=
  .byte (Spot.HasEscapes.pattern.step_of_inert hb rest) pos

/-- **Reading an item leads back to the pattern**, through an action block if it is one. -/
theorem reads_readItem {pos : Nat} {b : UInt8} {rest : Bytes} {item : Item} {next : Cursor}
    (h : readItem pos b rest = .ok (item, next)) :
    Reads item.isAction ⟨.pattern, .own⟩ ⟨.pattern, .own⟩ ⟨pos, b :: rest⟩ next := by
  unfold readItem at h
  split at h
  · next hpunctuation =>
    obtain ⟨rfl, rfl⟩ := Prod.mk.inj (Except.ok.inj h)
    obtain ⟨hinert, haction⟩ := inert_of_ofPunctuation? hpunctuation
    rw [haction]
    exact reads_inert_byte hinert pos rest
  · split_ifs at h with hbrace hbounds hbracket hbackslash hquote hletter hliteral
    · subst hbrace
      obtain ⟨⟨min, max, rfl⟩, hreads⟩ := reads_readRepetition hbounds h
      exact hreads
    · subst hbrace
      obtain ⟨⟨text, rfl⟩, hreads⟩ := reads_readAction (by simpa using hbounds) h
      exact hreads
    · subst hbracket
      obtain ⟨⟨set, rfl⟩, hreads⟩ := reads_readClass h
      exact hreads
    · subst hbackslash
      have hescaped : Reads false ⟨.pattern, .own⟩ ⟨.pattern, .escaped⟩
          ⟨pos, Ascii.backslash :: rest⟩ ⟨pos + 1, rest⟩ := .byte (by rfl) pos
      unfold readEscapeItem at h
      split at h
      · simp at h
      all_goals
        next hescape =>
        obtain ⟨rfl, rfl⟩ := Prod.mk.inj (Except.ok.inj h)
        exact hescaped.trans rfl (reads_readEscape .pattern hescape)
    · have hopen : Stand.step rest ⟨.pattern, .own⟩ b = ⟨.quoted b, .own⟩ := by
        simp [Stand.step, Spot.read, hbackslash, hquote]
      unfold readQuotedItem at h
      split at h
      · simp at h
      · next hquoted =>
        obtain ⟨rfl, rfl⟩ := Prod.mk.inj (Except.ok.inj h)
        exact (Reads.byte hopen pos).trans rfl (reads_readQuoted hquote hquoted)
    · obtain ⟨rfl, rfl⟩ := Prod.mk.inj (Except.ok.inj h)
      have hinert : ∀ c ∈ b :: rest.takeWhile Ascii.isWordByte, Inert c := by
        intro c hc
        rcases List.mem_cons.mp hc with rfl | hc
        · exact inert_of_isWordByte (by simp [Ascii.isWordByte, hletter])
        · exact inert_of_isWordByte (List.mem_takeWhile_imp hc)
      have hreads := Spot.HasEscapes.pattern.reads_inert hinert pos
        (rest.dropWhile Ascii.isWordByte)
      rw [List.cons_append, List.takeWhile_append_dropWhile, List.length_cons, Nat.add_comm _ 1,
        ← Nat.add_assoc] at hreads
      exact hreads
    · obtain ⟨rfl, rfl⟩ := Prod.mk.inj (Except.ok.inj h)
      have hinert : Inert b := by
        simp only [isLiteral, Bool.and_eq_true, bne_iff_ne] at hliteral
        exact ⟨hbackslash, fun h => hquote (.inl h), fun h => hquote (.inr h), hbracket,
          hliteral.1.2, hbrace⟩
      exact reads_inert_byte hinert pos rest

/-! ## Whole patterns -/

/-- The items from a cursor to the end of a text. -/
inductive Lexed : Cursor → List (Item × Span) → Prop
  | ended (pos : Nat) : Lexed ⟨pos, []⟩ []
  | blank {pos : Nat} {b : UInt8} {rest : Bytes} {items : List (Item × Span)}
    (hb : Ascii.isBlank b = true) (h : Lexed ⟨pos + 1, rest⟩ items) : Lexed ⟨pos, b :: rest⟩ items
  | item {pos : Nat} {b : UInt8} {rest : Bytes} {item : Item} {next : Cursor}
    {items : List (Item × Span)} (hitem : readItem pos b rest = .ok (item, next))
    (h : Lexed next items) : Lexed ⟨pos, b :: rest⟩ ((item, ⟨pos, next.pos⟩) :: items)

theorem exists_lexed_lexFrom {cursor : Cursor} {read : List (Item × Span)}
    (h : (lexFrom cursor read).error = none) :
    ∃ items, (lexFrom cursor read).items = read.reverse ++ items ∧ Lexed cursor items := by
  fun_induction lexFrom cursor read with
  | case1 cursor read hrest =>
    obtain ⟨pos, _⟩ := cursor
    obtain rfl := hrest
    exact ⟨[], by simp, .ended pos⟩
  | case2 cursor read b rest hrest hblank ih =>
    obtain ⟨pos, _⟩ := cursor
    obtain rfl := hrest
    obtain ⟨items, hitems, hlexed⟩ := ih h
    exact ⟨items, hitems, .blank hblank hlexed⟩
  | case3 => simp at h
  | case4 cursor read b rest hrest hblank item next hitem ih =>
    obtain ⟨pos, _⟩ := cursor
    obtain rfl := hrest
    obtain ⟨items, hitems, hlexed⟩ := ih h
    refine ⟨(item, ⟨pos, next.pos⟩) :: items, ?_, .item hitem hlexed⟩
    rw [hitems, List.reverse_cons, List.append_assoc]
    rfl

theorem lexed_lex {pattern : Bytes} (h : (lex pattern).error = none) :
    Lexed ⟨0, pattern⟩ (lex pattern).items := by
  obtain ⟨items, hitems, hlexed⟩ := exists_lexed_lexFrom h
  rw [lex, hitems]
  exact hlexed

/-- A position is strictly inside an action block: behind its first byte and before its end. -/
def InsideAction (items : List (Item × Span)) (position : Nat) : Prop :=
  ∃ text span, (.action text, span) ∈ items ∧ span.start < position ∧ position < span.stop

theorem Lexed.le_start {cursor : Cursor} {items : List (Item × Span)} (h : Lexed cursor items) :
    ∀ entry ∈ items, cursor.pos ≤ entry.2.start := by
  induction h with
  | ended => simp
  | blank _ _ ih => exact fun entry hmem => by have := ih entry hmem; simp at this ⊢; omega
  | @item pos b rest item next items hitem _ ih =>
    obtain ⟨u, hu⟩ := reads_readItem hitem
    intro entry hmem
    rcases List.mem_cons.mp hmem with rfl | hmem
    · exact Nat.le_refl pos
    · have hnext := ih entry hmem
      have hpos : next.pos = pos + u.length := hu.pos
      show pos ≤ entry.2.start
      omega

/-- There is no action block around a position before the items, nor at it. -/
theorem not_insideAction_of_le {items : List (Item × Span)} {position : Nat}
    (h : ∀ entry ∈ items, position ≤ entry.2.start) : ¬ InsideAction items position := by
  rintro ⟨text, span, hmem, hstart, -⟩
  have hle := h _ hmem
  simp only at hle
  omega

theorem insideAction_cons_iff {item : Item} {span : Span} {items : List (Item × Span)}
    {position : Nat} : InsideAction ((item, span) :: items) position ↔
      (item.isAction = true ∧ span.start < position ∧ position < span.stop) ∨
        InsideAction items position := by
  constructor
  · rintro ⟨text, span', hmem, hinside⟩
    rcases List.mem_cons.mp hmem with heq | hmem
    · obtain ⟨rfl, rfl⟩ := Prod.mk.inj heq
      exact .inl ⟨rfl, hinside⟩
    · exact .inr ⟨text, span', hmem, hinside⟩
  · rintro (⟨haction, hinside⟩ | ⟨text, span', hmem, hinside⟩)
    · cases item with
      | action text => exact ⟨text, span, List.mem_cons_self, hinside⟩
      | _ => exact absurd haction Bool.false_ne_true
    · exact ⟨text, span', List.mem_cons_of_mem _ hmem, hinside⟩

/-- Following `u` and `rest` up to a position behind `u` is following `u`, and then `rest`. -/
theorem Stand.run_take_add {s t : Stand} {u rest : Bytes} (h : s.run u rest = t) (k : Nat) :
    s.run ((u ++ rest).take (u.length + k)) ((u ++ rest).drop (u.length + k)) =
      t.run (rest.take k) (rest.drop k) := by
  rw [List.take_length_add_append, List.drop_length_add_append, run_append,
    List.take_append_drop, h]

/-- Following the bytes from a cursor on tells where the action blocks among the items are, and ends
outside of them. -/
def Locates (cursor : Cursor) (items : List (Item × Span)) : Prop :=
  Stand.run ⟨.pattern, .own⟩ cursor.rest [] = ⟨.pattern, .own⟩ ∧
  ∀ k ≤ cursor.rest.length,
    ((Stand.run ⟨.pattern, .own⟩ (cursor.rest.take k) (cursor.rest.drop k)).spot.inAction = true ↔
      InsideAction items (cursor.pos + k))

/-- Bytes that lead back to the pattern, in front of bytes that are followed to the end. -/
theorem Locates.passes {inside : Bool} {u : Bytes} {cursor next : Cursor}
    {items all : List (Item × Span)} (h : Locates next items)
    (hu : Stand.Passes inside ⟨.pattern, .own⟩ ⟨.pattern, .own⟩ u cursor next)
    (hstart : ∀ entry ∈ items, next.pos ≤ entry.2.start)
    (hall : ∀ k, InsideAction all (cursor.pos + k) ↔
      (inside = true ∧ 0 < k ∧ k < u.length) ∨ InsideAction items (cursor.pos + k)) :
    Locates cursor all := by
  obtain ⟨hend, hinside⟩ := h
  refine ⟨by rw [hu.rest, Stand.run_append, List.append_nil, hu.run_eq, hend], fun k hk => ?_⟩
  rw [hall k, hu.rest]
  rcases Nat.lt_or_ge k u.length with hlt | hge
  · have houtside : ¬ InsideAction items (cursor.pos + k) := not_insideAction_of_le
      fun entry hmem => by have := hstart entry hmem; have := hu.pos; omega
    rcases Nat.eq_zero_or_pos k with rfl | hpos
    · simpa [Stand.run, Spot.inAction] using houtside
    · rw [List.take_append_of_le_length (Nat.le_of_lt hlt),
        List.drop_append_of_le_length (Nat.le_of_lt hlt), hu.between k hpos hlt]
      simp [houtside, hpos, hlt]
  · obtain ⟨m, rfl⟩ : ∃ m, k = u.length + m := ⟨k - u.length, by omega⟩
    rw [hu.rest, List.length_append] at hk
    rw [Stand.run_take_add hu.run_eq, hinside m (by omega), hu.pos, Nat.add_assoc]
    exact (or_iff_right fun h => Nat.not_lt.mpr hge h.2.2).symm

/-- **Following a pattern tells where its action blocks are.** -/
theorem Lexed.locates {cursor : Cursor} {items : List (Item × Span)} (h : Lexed cursor items) :
    Locates cursor items := by
  induction h with
  | ended pos =>
    refine ⟨rfl, fun k hk => ?_⟩
    obtain rfl : k = 0 := by simpa using hk
    simp [InsideAction, Stand.run, Spot.inAction]
  | @blank pos b rest items hb hlexed ih =>
    obtain ⟨u, hu⟩ := reads_inert_byte (inert_of_isBlank hb) pos rest
    exact ih.passes hu hlexed.le_start (by simp)
  | @item pos b rest item next items hitem hlexed ih =>
    obtain ⟨u, hu⟩ := reads_readItem hitem
    refine ih.passes hu hlexed.le_start fun k => ?_
    rw [insideAction_cons_iff, hu.pos]
    simp

/-! ## Accepted patterns -/

theorem fault_eq_none_of_expand {macros : Macros} {expanding : List Bytes} {origin : Option Span}
    {items : List (Item × Span)} {fault : Option Error} {stream s : Stream} {registry : Registry}
    (h : (expand macros expanding origin items fault stream registry).1 = .ok s) :
    fault = none := by
  fun_induction expand macros expanding origin items fault stream registry with
  | case1 expanding origin fault stream registry =>
    cases fault with
    | none => rfl
    | some e => simp at h
  | case2 => next ih => exact ih h
  | case3 => next ih => exact ih h
  | case4 => simp at h
  | case5 => simp at h
  | case6 => simp at h
  | case7 => next ih => exact ih h
  | case8 => simp at h
  | case9 => next ih => exact ih h

/-- **Following an accepted pattern tells where its action blocks are.** -/
theorem locates_of_parse {macros : Macros} {pattern : Bytes} {registry : Registry} {t : Tree}
    (h : (parse macros pattern registry).1 = .ok t) : Locates ⟨0, pattern⟩ (lex pattern).items := by
  refine (lexed_lex ?_).locates
  rw [parse, tokenize] at h
  generalize hexpand : expand macros [] none (lex pattern).items (lex pattern).error .empty
    registry = result at h
  obtain ⟨stream, registry'⟩ := result
  cases stream with
  | error e => simp at h
  | ok stream => exact fault_eq_none_of_expand (congrArg Prod.fst hexpand)

end ActionRegex.Pattern
