import ActionRegex.Pattern.Tree
import ActionRegex.Text.Bytes
import Mathlib.Computability.Language
import Mathlib.Data.List.DropRight

/-!
# Words and languages

A word over the alphabet has bytes and actions in it. Reading it consumes its bytes only
(`Symbol.bytes`), and the actions after its last byte form its last block (`Symbol.lastBlock`).

A tree denotes a set of words, in which each symbol is a letter (`Tree.words`), and a language over
bytes, in which an action is the empty text (`Tree.language`). The language consists of the bytes of
the words (`Tree.mem_language_iff`).
-/

namespace ActionRegex

namespace Symbol

/-! ## Bytes -/

/-- The bytes that a word consumes. -/
def bytes (u : List Symbol) : Bytes := u.filterMap toByte?

@[simp] theorem bytes_nil : bytes [] = [] := rfl

@[simp] theorem bytes_append (u v : List Symbol) : bytes (u ++ v) = bytes u ++ bytes v :=
  List.filterMap_append

theorem bytes_cons (s : Symbol) (u : List Symbol) : bytes (s :: u) = bytes [s] ++ bytes u :=
  bytes_append [s] u

@[simp] theorem bytes_byte (b : UInt8) : bytes [byte b] = [b] := rfl

@[simp] theorem bytes_action (index : Nat) : bytes [action index] = [] := rfl

theorem bytes_eq_nil_iff {u : List Symbol} : bytes u = [] ↔ ∀ s ∈ u, s.isAction = true := by
  induction u with
  | nil => simp
  | cons s u ih =>
    rw [bytes_cons]
    cases s with
    | byte b => simp [isAction]
    | action index => simp [isAction, ih]

/-! ## The last block -/

/-- The actions of a word after its last byte. -/
def lastBlock (u : List Symbol) : List Symbol := u.rtakeWhile isAction

theorem mem_of_mem_lastBlock {s : Symbol} {u : List Symbol} (h : s ∈ lastBlock u) : s ∈ u :=
  (List.rtakeWhile_suffix (p := isAction) (l := u)).subset h

/-- What stands before a word does not take symbols out of its last block. -/
theorem mem_lastBlock_append {s : Symbol} (u : List Symbol) {v : List Symbol}
    (h : s ∈ lastBlock v) : s ∈ lastBlock (u ++ v) := by
  rw [lastBlock, List.rtakeWhile, List.mem_reverse] at h ⊢
  rw [List.reverse_append, List.takeWhile_append]
  split
  · next hall =>
    rw [List.mem_append]
    exact Or.inl ((List.takeWhile_prefix _).subset h)
  · exact h

/-- A word without bytes is in the last block as a whole. -/
theorem mem_lastBlock_of_bytes_eq_nil {s : Symbol} (u : List Symbol) {v : List Symbol}
    (hv : bytes v = []) (h : s ∈ v) : s ∈ lastBlock (u ++ v) := by
  refine mem_lastBlock_append u ?_
  have hall : lastBlock v = v := List.rtakeWhile_eq_self_iff.mpr (bytes_eq_nil_iff.mp hv)
  rw [hall]
  exact h

/-- A word without bytes is a part of the last block. -/
theorem length_le_length_lastBlock (u : List Symbol) {v : List Symbol} (hv : bytes v = []) :
    v.length ≤ (lastBlock (u ++ v)).length := by
  have hall : ∀ s ∈ v.reverse, s.isAction = true := fun s hs =>
    bytes_eq_nil_iff.mp hv s (List.mem_reverse.mp hs)
  rw [lastBlock, List.rtakeWhile, List.reverse_append, List.takeWhile_append_of_pos hall,
    List.length_reverse, List.length_append, List.length_reverse]
  exact Nat.le_add_right _ _

end Symbol

namespace Pattern.Tree

open Computability

/-! ## Denotations -/

/-- The words of a tree: every symbol is a letter. -/
def words : Tree → Language Symbol
  | symbol s => {[s]}
  | empty => 1
  | concat l r => l.words * r.words
  | alternate l r => l.words + r.words
  | closure t => t.words∗

/-- The texts that a tree describes: an action describes the empty text. -/
def language : Tree → Language UInt8
  | symbol (.byte b) => {[b]}
  | symbol (.action _) => 1
  | empty => 1
  | concat l r => l.language * r.language
  | alternate l r => l.language + r.language
  | closure t => t.language∗

theorem mem_words_symbol {s : Symbol} {u : List Symbol} : u ∈ (symbol s).words ↔ u = [s] := Iff.rfl

theorem mem_words_empty {u : List Symbol} : u ∈ empty.words ↔ u = [] := Iff.rfl

theorem mem_words_concat {l r : Tree} {u : List Symbol} :
    u ∈ (concat l r).words ↔ ∃ ul ∈ l.words, ∃ ur ∈ r.words, ul ++ ur = u := Language.mem_mul

theorem mem_words_alternate {l r : Tree} {u : List Symbol} :
    u ∈ (alternate l r).words ↔ u ∈ l.words ∨ u ∈ r.words := Iff.rfl

theorem mem_words_closure {t : Tree} {u : List Symbol} :
    u ∈ (closure t).words ↔ ∃ pieces : List (List Symbol), u = pieces.flatten ∧
      ∀ piece ∈ pieces, piece ∈ t.words := Language.mem_kstar

/-- If every part of a text is the bytes of a word, the whole is the bytes of the words together. -/
theorem exists_flatten_of_forall {words : Language Symbol} {parts : List Bytes}
    (h : ∀ w ∈ parts, ∃ u ∈ words, Symbol.bytes u = w) :
    ∃ pieces : List (List Symbol), (∀ u ∈ pieces, u ∈ words) ∧
      Symbol.bytes pieces.flatten = parts.flatten := by
  induction parts with
  | nil => exact ⟨[], by simp, rfl⟩
  | cons w parts ih =>
    obtain ⟨u, hu, hw⟩ := h w List.mem_cons_self
    obtain ⟨pieces, hpieces, hflat⟩ := ih fun x hx => h x (List.mem_cons_of_mem _ hx)
    refine ⟨u :: pieces, ?_, ?_⟩
    · intro x hx
      rcases List.mem_cons.mp hx with rfl | hx
      · exact hu
      · exact hpieces x hx
    · rw [List.flatten_cons, Symbol.bytes_append, hw, hflat, List.flatten_cons]

theorem bytes_flatten (pieces : List (List Symbol)) :
    Symbol.bytes pieces.flatten = (pieces.map Symbol.bytes).flatten := by
  induction pieces with
  | nil => rfl
  | cons u pieces ih =>
    rw [List.flatten_cons, Symbol.bytes_append, ih, List.map_cons, List.flatten_cons]

/-- **The language of a tree consists of the bytes of its words.** -/
theorem mem_language_iff {t : Tree} {w : Bytes} :
    w ∈ t.language ↔ ∃ u ∈ t.words, Symbol.bytes u = w := by
  induction t generalizing w with
  | symbol s =>
    have hbytes : w ∈ (symbol s).language ↔ w = Symbol.bytes [s] := by
      cases s <;> exact Iff.rfl
    rw [hbytes]
    constructor
    · rintro rfl
      exact ⟨[s], rfl, rfl⟩
    · rintro ⟨u, hu, rfl⟩
      rw [mem_words_symbol.mp hu]
  | empty =>
    rw [language, Language.mem_one]
    constructor
    · rintro rfl
      exact ⟨[], rfl, rfl⟩
    · rintro ⟨u, hu, rfl⟩
      rw [mem_words_empty.mp hu, Symbol.bytes_nil]
  | concat l r ihl ihr =>
    rw [language, Language.mem_mul]
    constructor
    · rintro ⟨wl, hl, wr, hr, rfl⟩
      obtain ⟨ul, hul, rfl⟩ := ihl.mp hl
      obtain ⟨ur, hur, rfl⟩ := ihr.mp hr
      exact ⟨ul ++ ur, mem_words_concat.mpr ⟨ul, hul, ur, hur, rfl⟩, Symbol.bytes_append ul ur⟩
    · rintro ⟨u, hu, rfl⟩
      obtain ⟨ul, hul, ur, hur, rfl⟩ := mem_words_concat.mp hu
      exact ⟨_, ihl.mpr ⟨ul, hul, rfl⟩, _, ihr.mpr ⟨ur, hur, rfl⟩,
        (Symbol.bytes_append ul ur).symm⟩
  | alternate l r ihl ihr =>
    rw [language, Language.mem_add, ihl, ihr]
    constructor
    · rintro (⟨u, hu, hw⟩ | ⟨u, hu, hw⟩)
      · exact ⟨u, mem_words_alternate.mpr (Or.inl hu), hw⟩
      · exact ⟨u, mem_words_alternate.mpr (Or.inr hu), hw⟩
    · rintro ⟨u, hu, hw⟩
      rcases mem_words_alternate.mp hu with hu | hu
      · exact Or.inl ⟨u, hu, hw⟩
      · exact Or.inr ⟨u, hu, hw⟩
  | closure t ih =>
    rw [language, Language.mem_kstar]
    constructor
    · rintro ⟨parts, rfl, hparts⟩
      obtain ⟨pieces, hpieces, hflat⟩ :=
        exists_flatten_of_forall fun w hw => ih.mp (hparts w hw)
      exact ⟨pieces.flatten, mem_words_closure.mpr ⟨pieces, rfl, hpieces⟩, hflat⟩
    · rintro ⟨u, hu, rfl⟩
      obtain ⟨pieces, rfl, hpieces⟩ := mem_words_closure.mp hu
      refine ⟨pieces.map Symbol.bytes, bytes_flatten pieces, ?_⟩
      intro w hw
      obtain ⟨piece, hpiece, rfl⟩ := List.mem_map.mp hw
      exact ih.mpr ⟨piece, hpieces piece hpiece, rfl⟩

end Pattern.Tree

end ActionRegex
