import ActionRegex.Text.Blank
import ActionRegex.Text.Bytes
import Mathlib.Data.List.Induction
import Mathlib.Data.List.TakeWhile

/-!
# Lines and blanks

Lines that are written with a newline each are read back, if they hold no newline and do not end
with a carriage return (`lines_flatMap_splitLines`). Blanks are removed from the ends of a text
only, so a character that is not blank keeps what stands before it and behind it apart.
-/

namespace ActionRegex

namespace Text

/-! ## Blanks -/

variable {c : Char} {text : List Char}

theorem trimStart_cons (hc : isBlank c = false) : trimStart (c :: text) = c :: text :=
  List.dropWhile_cons_of_neg (by simp [hc])

theorem trimStart_cons_of_isBlank (hc : isBlank c = true) :
    trimStart (c :: text) = trimStart text :=
  List.dropWhile_cons_of_pos hc

theorem trimEnd_concat (hc : isBlank c = false) : trimEnd (text ++ [c]) = text ++ [c] := by
  simp [trimEnd, hc]

theorem trimEnd_concat_of_isBlank (hc : isBlank c = true) :
    trimEnd (text ++ [c]) = trimEnd text := by
  simp [trimEnd, hc]

/-- Blanks are removed behind the last character that is not blank. -/
theorem trimEnd_append_cons (hc : isBlank c = false) (front text : List Char) :
    trimEnd (front ++ c :: text) = front ++ c :: trimEnd text := by
  induction text using List.reverseRecOn with
  | nil => exact trimEnd_concat hc
  | append_singleton text last ih =>
    rw [← List.cons_append, ← List.append_assoc]
    cases hlast : isBlank last with
    | false =>
      rw [trimEnd_concat hlast, trimEnd_concat hlast, List.append_assoc, List.cons_append]
    | true => rw [trimEnd_concat_of_isBlank hlast, trimEnd_concat_of_isBlank hlast, ih]

/-- A text without blanks on either side has none on one side. -/
theorem trimStart_eq_of_trim_eq (h : trim text = text) : trimStart text = text := by
  refine List.IsSuffix.eq_of_length_le (List.dropWhile_suffix isBlank) ?_
  have hle : (trim text).length ≤ (trimStart text).length := by
    rw [trim, trimEnd, List.length_reverse]
    exact (List.dropWhile_suffix isBlank).length_le.trans_eq List.length_reverse
  rwa [h] at hle

theorem trimEnd_eq_of_trim_eq (h : trim text = text) : trimEnd text = text := by
  have hstart := trimStart_eq_of_trim_eq h
  rwa [trim, hstart] at h

theorem isBlank_of_trimStart_eq (h : trimStart (c :: text) = c :: text) : isBlank c = false := by
  have hfirst := List.dropWhile_eq_self_iff.mp h (Nat.zero_lt_succ _)
  rw [List.getElem_cons_zero] at hfirst
  simpa using hfirst

/-- Blanks around a text that has none on either side. -/
theorem trim_cons_of_isBlank (hc : isBlank c = true) : trim (c :: text) = trim text := by
  rw [trim, trimStart_cons_of_isBlank hc, trim]

theorem trim_eq_self (hfirst : isBlank c = false) (hlast : trimEnd (c :: text) = c :: text) :
    trim (c :: text) = c :: text := by
  rw [trim, trimStart_cons hfirst, hlast]

/-! ## Parts of a text -/

/-- A text is split at the first character that satisfies a condition. -/
theorem splitFirst_append_cons {p : Char → Bool} {front : List Char}
    (hfront : ∀ c ∈ front, p c = false)
    (hc : p c = true) : splitFirst p (front ++ c :: text) = some (front, text) := by
  have hnot : ∀ c ∈ front, (!p c) = true := fun c h => by simp [hfront c h]
  rw [splitFirst, List.dropWhile_append_of_pos hnot, List.takeWhile_append_of_pos hnot,
    List.dropWhile_cons_of_neg (by simp [hc]), List.takeWhile_cons_of_neg (by simp [hc]),
    List.append_nil]

/-! ## Lines -/

/-- What stands between the newlines of a text. -/
def splitLines (text : List Char) : List (List Char) := text.splitOn '\n'

theorem endLine_reverse {line : List Char} (hlast : line.getLast? ≠ some '\r') :
    endLine line.reverse = line := by
  unfold endLine
  split
  · next rest h =>
    have hhead : line.reverse.head? = some '\r' := by rw [h]; rfl
    rw [List.head?_reverse] at hhead
    exact absurd hhead hlast
  · exact List.reverse_reverse line

theorem linesFrom_append {line : List Char} (hline : '\n' ∉ line) (seen rest : List Char) :
    linesFrom seen (line ++ '\n' :: rest) = endLine (line.reverse ++ seen) :: lines rest := by
  induction line generalizing seen with
  | nil => simp [linesFrom, lines]
  | cons c line ih =>
    obtain ⟨hc, hline⟩ := not_or.mp (mt List.mem_cons.mpr hline)
    rw [List.cons_append, linesFrom, if_neg (Ne.symm hc), ih hline]
    simp

/-- The first line of a text. -/
theorem lines_append {line : List Char} (hline : '\n' ∉ line)
    (hlast : line.getLast? ≠ some '\r') (rest : List Char) :
    lines (line ++ '\n' :: rest) = line :: lines rest := by
  rw [lines, linesFrom_append hline, List.append_nil, endLine_reverse hlast]

theorem splitLines_of_not_mem {line : List Char} (hline : '\n' ∉ line) :
    splitLines line = [line] :=
  List.splitOn_eq_singleton hline

theorem splitLines_append {line : List Char} (hline : '\n' ∉ line) (rest : List Char) :
    splitLines (line ++ '\n' :: rest) = line :: splitLines rest :=
  List.splitOn_append_cons_self_of_not_mem hline rest

/-- A text is one line, or a line and a further text. -/
@[elab_as_elim]
theorem line_induction {P : List Char → Prop} (last : ∀ line, '\n' ∉ line → P line)
    (cons : ∀ line rest, '\n' ∉ line → P rest → P (line ++ '\n' :: rest)) (text : List Char) :
    P text := by
  induction hn : text.length using Nat.strongRecOn generalizing text with
  | ind n ih =>
    by_cases hmem : '\n' ∈ text
    · obtain ⟨line, rest, rfl, hline⟩ := List.eq_append_cons_of_mem hmem
      refine cons line rest hline (ih rest.length ?_ rest rfl)
      rw [← hn, List.length_append, List.length_cons]
      omega
    · exact last text hmem

/-- The lines of a text that is followed by a newline. -/
theorem lines_append_newline {text rest : List Char}
    (hlast : ∀ line ∈ splitLines text, line.getLast? ≠ some '\r') :
    lines (text ++ '\n' :: rest) = splitLines text ++ lines rest := by
  induction text using line_induction with
  | last line hline =>
    rw [splitLines_of_not_mem hline] at hlast ⊢
    exact lines_append hline (hlast line (List.mem_singleton_self line)) rest
  | cons line more hline ih =>
    rw [splitLines_append hline] at hlast ⊢
    rw [List.append_assoc, List.cons_append, lines_append hline (hlast line List.mem_cons_self),
      ih fun line hmem => hlast line (List.mem_cons_of_mem _ hmem), List.cons_append]

/-- **Lines that are written are read back.** -/
theorem lines_flatMap_splitLines {texts : List (List Char)}
    (hlast : ∀ line ∈ texts.flatMap splitLines, line.getLast? ≠ some '\r') :
    lines (texts.flatMap fun text => text ++ ['\n']) = texts.flatMap splitLines := by
  induction texts with
  | nil => rfl
  | cons text texts ih =>
    rw [List.flatMap_cons] at hlast
    rw [List.flatMap_cons, List.flatMap_cons, List.append_assoc, List.singleton_append,
      lines_append_newline fun line h => hlast line (List.mem_append_left _ h),
      ih fun line h => hlast line (List.mem_append_right _ h)]

/-- The lines of a text, each ended by a newline, are the text and a newline. -/
theorem flatMap_splitLines (text : List Char) :
    ((splitLines text).flatMap fun line => line ++ ['\n']) = text ++ ['\n'] := by
  induction text using line_induction with
  | last line hline => rw [splitLines_of_not_mem hline, List.flatMap_singleton]
  | cons line rest hline ih =>
    rw [splitLines_append hline, List.flatMap_cons, ih, List.append_assoc, List.append_assoc,
      List.singleton_append, List.cons_append]

end Text

end ActionRegex
