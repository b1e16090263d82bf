import ActionRegex.Proofs.Pattern.Checked.Items
import ActionRegex.Proofs.Pattern.Checked.Tokens
import ActionRegex.Proofs.Pattern.Scanning
import ActionRegex.Proofs.Pattern.Within.Expansion

/-!
# Parsing without failed accesses

The parser by positions: it reads an item and at once adds it to the tokens, and it reads the body
of a macro as a text of its own. Whatever fails on the way leaves it without a result (`none`): a
cut inside a character, an index out of range, a case that is not there. A step that stays where it
is has no result either, since it would be taken again and again.

Of UTF-8 texts it always has a result, and it is that of `parse` (`parse_eq_some`).
-/

namespace ActionRegex.Pattern

namespace Checked

open Bytes (Continued continued_ofString)

/-- Reads a text from a position on, and adds its items to a stream. -/
def run (macros : Macros) (expanding : List Bytes) (origin : Option Span) (text : Bytes)
    (pos : Nat) (stream : Stream) (registry : Registry) : Option Expanded :=
  match _hb : text[pos]? with
  | none => some (.ok stream, registry)
  | some b =>
    if Ascii.isBlank b then run macros expanding origin text (pos + 1) stream registry
    else
      match readItem text pos b with
      | none => none
      | some (.error e) => some (.error e, registry)
      | some (.ok (item, next)) =>
        if _hnext : pos < next then
          let span := origin.getD ⟨pos, next⟩
          match item with
          | .action body =>
            run macros expanding origin text next
              (stream.emit (.symbol (.action registry.size)) span) (registry.add body)
          | .name name =>
            match _hbody : macros.body? name with
            | none =>
              if name.length = 1 then
                match name[0]? with
                | none => none
                | some b =>
                  run macros expanding origin text next (stream.emitByte span b) registry
              else some (.error ⟨.unknownMacro name, span⟩, registry)
            | some body =>
              if _hname : expanding.contains name then
                some (.error ⟨.recursiveMacro name, span⟩, registry)
              else
                match run macros (name :: expanding) (some span) body 0 .empty registry with
                | none => none
                | some (.error e, registry) => some (.error ⟨e.fault, span⟩, registry)
                | some (.ok inner, registry) =>
                  run macros expanding origin text next (stream.emitGroup inner span) registry
          | item =>
            match addItem stream span item with
            | none => none
            | some (.error e) => some (.error e, registry)
            | some (.ok stream) => run macros expanding origin text next stream registry
        else none
termination_by (macros.countOutside expanding, text.length - pos)
decreasing_by
  all_goals have := lt_length _hb
  · exact Prod.Lex.right _ (by omega)
  · exact Prod.Lex.right _ (by omega)
  · exact Prod.Lex.right _ (by omega)
  · exact Prod.Lex.left _ _ (Macros.countOutside_cons_lt _hbody _hname)
  · exact Prod.Lex.right _ (by omega)
  · exact Prod.Lex.right _ (by omega)

/-! ## Readings from a position on -/

/-- What reading a text from a position on gives. -/
def readingAt (text : Bytes) (pos : Nat) : Reading Error := lexFrom (cursorAt text pos) []

theorem readingAt_zero (text : Bytes) : readingAt text 0 = lex text := rfl

variable {text : Bytes}

theorem readingAt_of_none {pos : Nat} (hb : text[pos]? = none) :
    readingAt text pos = ⟨[], none⟩ := by
  rw [readingAt, cursorAt, drop_of_none hb]
  exact (Scans.refl _).lexFrom_eq (.ended pos) []

theorem readingAt_of_isBlank {pos : Nat} {b : UInt8} (hb : text[pos]? = some b)
    (hblank : Ascii.isBlank b = true) : readingAt text pos = readingAt text (pos + 1) := by
  rw [readingAt, cursorAt, drop_of_some hb]
  exact (Scans.blank hblank (.refl _)).lexFrom_eq_lexFrom []

theorem readingAt_of_error (htext : Continued text) {pos : Nat} {b : UInt8} {e : Error}
    (hb : text[pos]? = some b) (hblank : ¬ Ascii.isBlank b = true)
    (hitem : readItem text pos b = some (.error e)) : readingAt text pos = ⟨[], some e⟩ := by
  have hreading := (follows_readItem htext hb).eq_of_error hitem
  rw [readingAt, cursorAt, drop_of_some hb]
  exact (Scans.refl _).lexFrom_eq (.failed (Bool.eq_false_iff.mpr hblank) hreading) []

theorem readingAt_of_ok (htext : Continued text) {pos next : Nat} {b : UInt8} {item : Item}
    (hb : text[pos]? = some b) (hitem : readItem text pos b = some (.ok (item, next))) :
    readingAt text pos =
      ⟨(item, ⟨pos, next⟩) :: (readingAt text next).items, (readingAt text next).error⟩ := by
  have hreading := (follows_readItem htext hb).eq_of_ok hitem
  rw [readingAt, cursorAt, drop_of_some hb,
    (Scans.item hreading (.refl _)).lexFrom_eq_lexFrom []]
  exact lexFrom_eq_append _ _

/-- Reading an item moves on. -/
theorem lt_of_readItem (htext : Continued text) {pos next : Nat} {b : UInt8} {item : Item}
    (hb : text[pos]? = some b) (hitem : readItem text pos b = some (.ok (item, next))) :
    pos < next := by
  have hlt := lt_length hb
  have hlength := readItem_rest ((follows_readItem htext hb).eq_of_ok hitem)
  rw [cursorAt, List.length_drop, List.length_drop] at hlength
  omega

/-! ## Runs -/

/-- **A run over UTF-8 texts has a result**, and it is that of reading the text to its end and
expanding its items then. -/
theorem run_eq {macros : Macros}
    (hmacros : ∀ name body, macros.body? name = some body → Continued body)
    (expanding : List Bytes) (origin : Option Span) (htext : Continued text) (pos : Nat)
    (stream : Stream) (registry : Registry) :
    run macros expanding origin text pos stream registry =
      some (expand macros expanding origin (readingAt text pos).items (readingAt text pos).error
        stream registry) := by
  fun_induction run macros expanding origin text pos stream registry with
  | case1 expanding origin text pos stream registry hb =>
    rw [readingAt_of_none hb, expand_nil]
  | case2 expanding origin text pos stream registry b hb hblank ih =>
    rw [readingAt_of_isBlank hb hblank, ih htext]
  | case3 expanding origin text pos stream registry b hb hblank hnone =>
    exact absurd hnone (follows_readItem htext hb).ne_none
  | case4 expanding origin text pos stream registry b hb hblank e herror =>
    rw [readingAt_of_error htext hb hblank herror, expand.eq_def]
  | case5 expanding origin text pos stream registry b hb hblank next hnext span body hitem ih =>
    rw [readingAt_of_ok htext hb hitem, expand, ih htext]
  | case6 expanding origin text pos stream registry b hb hblank next hnext name hbody hlength
      hnone hitem =>
    rw [List.getElem?_eq_none_iff, hlength] at hnone
    omega
  | case7 expanding origin text pos stream registry b hb hblank next hnext span name hbody hlength
      letter hletter hitem ih =>
    obtain ⟨b', rfl⟩ := List.length_eq_one_iff.mp hlength
    obtain rfl := Option.some.inj hletter
    rw [readingAt_of_ok htext hb hitem, expand_letter hbody, ih htext]
  | case8 expanding origin text pos stream registry b hb hblank next hnext span name hbody hlength
      hitem =>
    have hname : ∀ b, name ≠ [b] := by
      rintro b rfl
      exact hlength rfl
    rw [readingAt_of_ok htext hb hitem, expand_unknown hbody hname]
  | case9 expanding origin text pos stream registry b hb hblank next hnext span name body hbody
      hname hitem =>
    rw [readingAt_of_ok htext hb hitem, expand_recursive hbody hname]
  | case10 expanding origin text pos stream registry b hb hblank next hnext span name body hbody
      hname hnone hitem ih =>
    rw [ih (hmacros name body hbody)] at hnone
    simp at hnone
  | case11 expanding origin text pos stream registry b hb hblank next hnext span name body hbody
      hname e last hrun hitem ih =>
    rw [ih (hmacros name body hbody), readingAt_zero] at hrun
    rw [readingAt_of_ok htext hb hitem, expand_reference hbody hname, Option.some.inj hrun]
  | case12 expanding origin text pos stream registry b hb hblank next hnext span name body hbody
      hname inner last hrun hitem ihbody ih =>
    rw [ihbody (hmacros name body hbody), readingAt_zero] at hrun
    rw [readingAt_of_ok htext hb hitem, expand_reference hbody hname, Option.some.inj hrun,
      ih htext]
  | case13 expanding origin text pos stream registry b hb hblank next hnext span item haction
      hname hnone hitem =>
    rw [addItem_eq] at hnone
    simp at hnone
  | case14 expanding origin text pos stream registry b hb hblank next hnext span item haction
      hname e hadd hitem =>
    rw [addItem_eq] at hadd
    rw [readingAt_of_ok htext hb hitem, expand_item haction hname, Option.some.inj hadd]
  | case15 expanding origin text pos stream registry b hb hblank next hnext span item haction
      hname stream' hadd hitem ih =>
    rw [addItem_eq] at hadd
    rw [readingAt_of_ok htext hb hitem, expand_item haction hname, Option.some.inj hadd, ih htext]
  | case16 expanding origin text pos stream registry b hb hblank item next hitem hnext =>
    exact absurd (lt_of_readItem htext hb hitem) hnext

/-! ## Parsing -/

/-- Parses a pattern under a macro table. -/
def parse (macros : Macros) (pattern : Bytes) (registry : Registry) :
    Option (Except Error Tree × Registry) :=
  match run macros [] none pattern 0 .empty registry with
  | none => none
  | some (.error e, registry) => some (.error e, registry)
  | some (.ok stream, registry) => (treeOfStream stream).map fun result => (result, registry)

/-- The macros of a table of names and texts. -/
def macrosOf (table : List (String × String)) : Macros :=
  table.map (Prod.map Bytes.ofString Bytes.ofString)

theorem continued_of_body? {table : List (String × String)} {name body : Bytes}
    (h : (macrosOf table).body? name = some body) : Continued body := by
  induction table with
  | nil => exact nomatch h
  | cons entry table ih =>
    rw [macrosOf, List.map_cons, Prod.map_apply', Macros.body?] at h
    split at h
    · obtain rfl := Option.some.inj h
      exact continued_ofString entry.2
    · exact ih h

/-- **Parsing never fails on the way.** For every pattern, macro table and registry the parser by
positions has a result: no cut is out of range or inside a character, no index is out of range, no
difference is below zero, and no case is reached that is not there. The result is a tree or a fault
of the pattern, namely that of `parse`. -/
theorem parse_eq_some (table : List (String × String)) (pattern : String) (registry : Registry) :
    parse (macrosOf table) (Bytes.ofString pattern) registry =
      some (Pattern.parse (macrosOf table) (Bytes.ofString pattern) registry) := by
  have hmacros : ∀ name body, (macrosOf table).body? name = some body → Continued body :=
    fun _ _ => continued_of_body?
  have hrun := run_eq hmacros [] none (continued_ofString pattern) 0 .empty registry
  rw [readingAt_zero] at hrun
  unfold parse Pattern.parse tokenize
  rw [hrun]
  obtain ⟨result, last⟩ := expand (macrosOf table) [] none (lex (Bytes.ofString pattern)).items
    (lex (Bytes.ofString pattern)).error .empty registry
  cases result with
  | error e => rfl
  | ok stream => simp only [treeOfStream_eq, Option.map_some]

/-- Bytes that are not UTF-8 can be cut inside a character: a block with a marked byte only. -/
example : parse [] [123, 128, 125] .empty = none := by cbv

end Checked

end ActionRegex.Pattern
