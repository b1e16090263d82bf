import ActionRegex.Proofs.Pattern.Within.Lexing
import ActionRegex.RuleFile.Reader
import Mathlib.Algebra.Order.Ring.Nat

/-!
# Braces and action blocks

A rule is read twice: line by line, to know which of its lines are inside an action block, and then
as a pattern. Both agree on where the action blocks are, in every accepted pattern that can be
followed line by line (`Stand.linewise`): a line ends in quoted text, in a class or in a literal
nowhere, and the last byte of an escaped control character means nothing without its escape.
-/

namespace ActionRegex

open Pattern (Spot Mode Stand InsideAction)

/-! ## Lines of a pattern -/

namespace Pattern

/-- Whether a line may end: a scan of single lines does not know what is left open but braces. -/
def Spot.endsLine : Spot → Bool
  | .pattern | .block _ => true
  | _ => false

/-- How many braces are open. -/
def Spot.depth : Spot → Nat
  | .block depth | .literal depth _ => depth + 1
  | _ => 0

/-- Whether a byte ends a line only where a line may end, and has no meaning of its own if it is the
last byte of a control character. -/
def Stand.agrees (rest : Bytes) (stand : Stand) (b : UInt8) : Bool :=
  (b ≠ Ascii.newline || stand.spot.endsLine) &&
    (stand.mode ≠ .control || stand.spot.read rest b = ⟨stand.spot, .own⟩)

/-- Whether bytes can be followed line by line. -/
def Stand.linewise : Stand → Bytes → Bool
  | _, [] => true
  | stand, b :: rest => stand.agrees rest b && (stand.step rest b).linewise rest

theorem Spot.depth_ne_zero_iff (spot : Spot) : spot.depth ≠ 0 ↔ spot.inAction = true := by
  cases spot with
  | pattern => simp [depth, inAction]
  | quoted => simp [depth, inAction]
  | bracketed => simp [depth, inAction]
  | block => simp [depth, inAction]
  | literal => simp [depth, inAction]

/-- At the end of a line nothing is left but the braces that are open. -/
theorem Stand.step_newline {stand : Stand} {rest : Bytes}
    (h : stand.agrees rest Ascii.newline = true) :
    stand.step rest Ascii.newline = ⟨stand.spot, .own⟩ ∧ stand.spot.endsLine = true := by
  obtain ⟨spot, mode⟩ := stand
  have hends : spot.endsLine = true := by simpa using (Bool.and_eq_true_iff.mp h).1
  refine ⟨?_, hends⟩
  cases mode with
  | own =>
    cases spot with
    | pattern => rfl
    | block => rfl
    | _ => exact absurd hends Bool.false_ne_true
  | escaped => exact Stand.step_escaped (by decide) rest
  | control => rfl

end Pattern

namespace BraceScan

/-! ## Following a line -/

/-- What a byte of a line is part of, for a scan of that line alone. -/
def Context.ofSpot : Spot → Context
  | .quoted delimiter | .literal _ delimiter => .quoted delimiter
  | .bracketed => .bracketed
  | .pattern | .block _ => .plain

/-- A scan of a line from a stand on. -/
def scanFrom (number : Nat) (stand : Stand) (scan : BraceScan) (line : Bytes) : BraceScan :=
  scanBytes number (.ofSpot stand.spot) (stand.mode = .escaped) scan line

variable {number : Nat} {scan : BraceScan} {b : UInt8} {line after : Bytes}

theorem isQuote_iff : isQuote b = true ↔ b = Ascii.quote ∨ b = Ascii.doubleQuote := by
  simp [isQuote, or_comm]

/-- Whether a brace starts bounds can be seen in its line. -/
theorem startsBounds_append (hafter : Pattern.startsBounds after = false) :
    Pattern.startsBounds (line ++ after) = startsBounds line.head? := by
  cases line with
  | nil => exact hafter
  | cons => rfl

/-- A scan that knows the braces open at a stand goes on as `next` says after one more byte. -/
def Follows (number : Nat) (scan : BraceScan) (b : UInt8) (line : Bytes) (stand next : Stand) :
    Prop :=
  ∃ scan', scan'.depth = next.spot.depth ∧
    scanFrom number stand scan (b :: line) = scanFrom number next scan' line

theorem follows_pattern (hdepth : scan.depth = 0) (hafter : Pattern.startsBounds after = false) :
    Follows number scan b line ⟨.pattern, .own⟩ (Spot.pattern.read (line ++ after) b) := by
  unfold Spot.read
  simp only [startsBounds_append hafter]
  split_ifs with hbackslash hquote hbracket hbrace
  · subst hbackslash
    exact ⟨scan, hdepth, by simp [scanFrom, scanBytes, Context.ofSpot, hdepth, isQuote_iff,
      Ascii.backslash, Ascii.quote, Ascii.doubleQuote]⟩
  · exact ⟨scan, hdepth, by simp [scanFrom, scanBytes, Context.ofSpot, isQuote_iff, hquote]⟩
  · subst hbracket
    exact ⟨scan, hdepth, by simp [scanFrom, scanBytes, Context.ofSpot, hdepth, isQuote_iff, hquote,
      hbackslash]⟩
  · obtain ⟨rfl, hbounds⟩ := hbrace
    exact ⟨⟨1, number⟩, rfl, by simp [scanFrom, scanBytes, Context.ofSpot, hdepth, isQuote_iff,
      hquote, hbackslash, hbracket, hbounds]⟩
  · exact ⟨scan, hdepth, by simp [scanFrom, scanBytes, Context.ofSpot, hdepth, isQuote_iff, hquote,
      hbackslash, hbracket, hbrace]⟩

theorem follows_block {depth : Nat} (hdepth : scan.depth = depth + 1) (rest : Bytes) :
    Follows number scan b line ⟨.block depth, .own⟩ ((Spot.block depth).read rest b) := by
  have hopen : scan.depth > 0 := by omega
  have hclose : scanFrom number ⟨.block depth, .own⟩ scan (Ascii.rightBrace :: line) =
      scanBytes number .plain false ⟨scan.depth - 1, scan.line⟩ line := by
    simp [scanFrom, scanBytes, Context.ofSpot, hopen, isQuote_iff, Ascii.rightBrace,
      Ascii.leftBrace, Ascii.quote, Ascii.doubleQuote]
  rw [Spot.read]
  split_ifs with hleft hright hzero hquote
  · subst hleft
    exact ⟨⟨scan.depth + 1, scan.line⟩, by rw [hdepth]; rfl, by simp [scanFrom, scanBytes,
      Context.ofSpot, hopen, isQuote_iff, Ascii.leftBrace, Ascii.quote, Ascii.doubleQuote]⟩
  · subst hright hzero
    exact ⟨_, by rw [hdepth]; rfl, hclose⟩
  · subst hright
    exact ⟨_, by show scan.depth - 1 = depth - 1 + 1; omega, hclose⟩
  · exact ⟨scan, hdepth, by simp [scanFrom, scanBytes, Context.ofSpot, isQuote_iff, hquote.symm]⟩
  · rw [or_comm] at hquote
    exact ⟨scan, hdepth, by simp [scanFrom, scanBytes, Context.ofSpot, hopen, isQuote_iff, hleft,
      hright, hquote]⟩

theorem follows_delimited {spot outside : Spot} {delimiter : UInt8}
    (hspot : Context.ofSpot spot = .quoted delimiter) (houtside : Context.ofSpot outside = .plain)
    (hspotDepth : scan.depth = spot.depth) (houtsideDepth : scan.depth = outside.depth) :
    Follows number scan b line ⟨spot, .own⟩
      (if b = Ascii.backslash then ⟨spot, .escaped⟩
        else if b = delimiter then ⟨outside, .own⟩ else ⟨spot, .own⟩) := by
  split_ifs with hbackslash hdelimiter
  · exact ⟨scan, hspotDepth, by simp [scanFrom, scanBytes, hspot, hbackslash]⟩
  · subst hdelimiter
    exact ⟨scan, houtsideDepth, by simp [scanFrom, scanBytes, hspot, houtside, hbackslash]⟩
  · exact ⟨scan, hspotDepth, by simp [scanFrom, scanBytes, hspot, hbackslash, hdelimiter]⟩

/-- **A byte with a meaning of its own has the same meaning for a scan of its line.** -/
theorem follows_own {spot : Spot} (hdepth : scan.depth = spot.depth)
    (hafter : Pattern.startsBounds after = false) :
    Follows number scan b line ⟨spot, .own⟩ (spot.read (line ++ after) b) := by
  cases spot with
  | pattern => exact follows_pattern hdepth hafter
  | quoted delimiter => exact follows_delimited rfl rfl hdepth hdepth
  | bracketed =>
    rw [Spot.read]
    split_ifs with hbracket hbackslash
    · subst hbracket
      exact ⟨scan, hdepth, by simp [scanFrom, scanBytes, Context.ofSpot, Ascii.rightBracket,
        Ascii.backslash]⟩
    · exact ⟨scan, hdepth, by simp [scanFrom, scanBytes, Context.ofSpot, hbackslash]⟩
    · exact ⟨scan, hdepth, by simp [scanFrom, scanBytes, Context.ofSpot, hbracket, hbackslash]⟩
  | block depth => exact follows_block hdepth _
  | literal depth delimiter => exact follows_delimited rfl rfl hdepth hdepth

/-- A byte of a line that can be followed on its own. -/
theorem follows_step {stand : Stand} (hdepth : scan.depth = stand.spot.depth)
    (hafter : Pattern.startsBounds after = false)
    (h : stand.agrees (line ++ after) b = true) :
    Follows number scan b line stand (stand.step (line ++ after) b) := by
  obtain ⟨spot, mode⟩ := stand
  cases mode with
  | own => exact follows_own hdepth hafter
  | escaped =>
    show Follows _ _ _ _ _ (if _ then ⟨spot, .control⟩ else ⟨spot, .own⟩)
    split
    · exact ⟨scan, hdepth, rfl⟩
    · exact ⟨scan, hdepth, rfl⟩
  | control =>
    -- the scan takes the byte for one with a meaning of its own
    have hread : spot.read (line ++ after) b = ⟨spot, .own⟩ := by
      simpa [Stand.agrees] using (Bool.and_eq_true_iff.mp h).2
    have hown : Follows number scan b line ⟨spot, .own⟩ (spot.read (line ++ after) b) :=
      follows_own hdepth hafter
    rw [hread] at hown
    exact hown

/-- **A scan of a line counts the braces that are open behind it.** -/
theorem depth_scanFrom (number : Nat) {stand : Stand} (hafter : Pattern.startsBounds after = false)
    (h : stand.linewise (line ++ after) = true) (hdepth : scan.depth = stand.spot.depth) :
    (scanFrom number stand scan line).depth = (stand.run line after).spot.depth ∧
      (stand.run line after).linewise after = true := by
  induction line generalizing stand scan with
  | nil => exact ⟨hdepth, h⟩
  | cons b line ih =>
    obtain ⟨hagrees, hrest⟩ := Bool.and_eq_true_iff.mp h
    obtain ⟨scan', hdepth', hscan⟩ := follows_step hdepth hafter hagrees
    rw [hscan]
    exact ih hrest hdepth'

/-! ## Following the lines of a rule -/

/-- Follows numbered lines. -/
def scanLines (scan : BraceScan) (lines : List (Nat × Bytes)) : BraceScan :=
  lines.foldl (fun scan line => scan.scanLine line.1 line.2) scan

/-- The text of lines, with a newline between them. -/
def joinLines (lines : List (Nat × Bytes)) : Bytes :=
  [Ascii.newline].intercalate (lines.map Prod.snd)

/-- The position in the text where line number `k` starts, counted from zero. -/
def lineStart (lines : List (Nat × Bytes)) (k : Nat) : Nat :=
  ((lines.take k).map fun line => line.2.length + 1).sum

theorem joinLines_singleton (first : Nat × Bytes) : joinLines [first] = first.2 :=
  List.intercalate_singleton

theorem joinLines_cons_cons (first second : Nat × Bytes) (lines : List (Nat × Bytes)) :
    joinLines (first :: second :: lines) =
      first.2 ++ Ascii.newline :: joinLines (second :: lines) := by
  simp [joinLines, List.intercalate_cons_cons]

theorem lineStart_succ (first : Nat × Bytes) (lines : List (Nat × Bytes)) (k : Nat) :
    lineStart (first :: lines) (k + 1) = first.2.length + 1 + lineStart lines k := by
  simp [lineStart]

theorem lineStart_le {lines : List (Nat × Bytes)} {k : Nat} (hk : k < lines.length) :
    lineStart lines k ≤ (joinLines lines).length := by
  induction lines generalizing k with
  | nil => simp at hk
  | cons first lines ih =>
    cases k with
    | zero => exact Nat.zero_le _
    | succ k =>
      have hk : k < lines.length := Nat.lt_of_succ_lt_succ hk
      have hle := ih hk
      cases lines with
      | nil => simp at hk
      | cons second lines =>
        rw [lineStart_succ, joinLines_cons_cons, List.length_append, List.length_cons]
        omega

theorem scanLine_eq_scanFrom {spot : Spot} (h : spot.endsLine = true) (number : Nat)
    (line : Bytes) : scan.scanLine number line = scanFrom number ⟨spot, .own⟩ scan line := by
  cases spot with
  | pattern => rfl
  | block => rfl
  | _ => exact absurd h Bool.false_ne_true

/-- **A scan of lines counts the braces that are open** at the start of each line and in the end. -/
theorem depth_scanLines {spot : Spot} {lines : List (Nat × Bytes)}
    (hspot : spot.endsLine = true) (hdepth : scan.depth = spot.depth)
    (h : Stand.linewise ⟨spot, .own⟩ (joinLines lines) = true) :
    (∀ k < lines.length, (scan.scanLines (lines.take k)).depth =
      (Stand.run ⟨spot, .own⟩ ((joinLines lines).take (lineStart lines k))
        ((joinLines lines).drop (lineStart lines k))).spot.depth) ∧
    (scan.scanLines lines).depth = (Stand.run ⟨spot, .own⟩ (joinLines lines) []).spot.depth := by
  induction lines generalizing spot scan with
  | nil => exact ⟨by simp, hdepth⟩
  | cons first lines ih =>
    cases lines with
    | nil =>
      rw [joinLines_singleton] at h ⊢
      obtain ⟨hline, -⟩ := depth_scanFrom first.1 (show Pattern.startsBounds [] = false from rfl)
        (by rwa [List.append_nil]) hdepth
      refine ⟨fun k hk => ?_, ?_⟩
      · obtain rfl : k = 0 := by simpa using hk
        exact hdepth
      · rw [← hline, ← scanLine_eq_scanFrom hspot]
        rfl
    | cons second lines =>
      rw [joinLines_cons_cons] at h ⊢
      obtain ⟨hline, hrest⟩ := depth_scanFrom first.1 rfl h hdepth
      rw [← scanLine_eq_scanFrom hspot] at hline
      generalize hfirst : Stand.run ⟨spot, .own⟩ first.2
        (Ascii.newline :: joinLines (second :: lines)) = stand at hline hrest
      obtain ⟨hagrees, hlinewise⟩ := Bool.and_eq_true_iff.mp hrest
      obtain ⟨hstep, hends⟩ := Stand.step_newline hagrees
      rw [hstep] at hlinewise
      obtain ⟨hstarts, hend⟩ := ih hends hline hlinewise
      -- the first line and its newline lead to the start of the second
      have hrun : Stand.run ⟨spot, .own⟩ (first.2 ++ [Ascii.newline])
          (joinLines (second :: lines)) = ⟨stand.spot, .own⟩ := by
        rw [Stand.run_append, List.singleton_append, hfirst]
        exact hstep
      refine ⟨fun k hk => ?_, ?_⟩
      · cases k with
        | zero => exact hdepth
        | succ k =>
          have hlength : first.2.length + 1 = (first.2 ++ [Ascii.newline]).length := by simp
          rw [List.append_cons, lineStart_succ first, hlength, Stand.run_take_add hrun]
          exact hstarts k (Nat.lt_of_succ_lt_succ hk)
      · rw [List.append_cons, Stand.run_append, List.append_nil, hrun]
        exact hend

/-! ## Agreement -/

/-- **A scan of the lines of a rule agrees with its pattern.** For a pattern that is accepted and
can be followed line by line, braces are open at the start of a line if and only if that line starts
inside an action block, and the rule can be ended behind its last line. -/
theorem scanLines_agrees_with_parse {macros : Macros} {registry : Registry} {tree : Pattern.Tree}
    {lines : List (Nat × Bytes)}
    (hparse : (Pattern.parse macros (joinLines lines) registry).1 = .ok tree)
    (hlines : Stand.linewise ⟨.pattern, .own⟩ (joinLines lines) = true) :
    (∀ k < lines.length, (scanLines {} (lines.take k)).depth ≠ 0 ↔
      InsideAction (Pattern.lex (joinLines lines)).items (lineStart lines k)) ∧
    ∀ rules : RuleFile.Rules, rules.scan = scanLines {} lines →
      ∃ finished, rules.finish = .ok finished ∧ finished.scan = {} := by
  obtain ⟨hend, hinside⟩ := Pattern.locates_of_parse hparse
  have hdepth : ({} : BraceScan).depth = Spot.pattern.depth := rfl
  obtain ⟨hstarts, htotal⟩ := depth_scanLines rfl hdepth hlines
  refine ⟨fun k hk => ?_, fun rules hscan => ?_⟩
  · have hstart := hinside (lineStart lines k) (lineStart_le hk)
    rw [Nat.zero_add] at hstart
    rw [hstarts k hk, Spot.depth_ne_zero_iff, hstart]
  · rw [hend] at htotal
    have hclosed : ¬ rules.scan.depth > 0 := by rw [hscan, htotal]; decide
    exact ⟨_, if_neg hclosed, rfl⟩

/-- A rule of three lines: an escaped brace, a repetition, and an action block from the first line
to the last, with a brace in a literal and a block of its own. The line in the middle starts with a
number sign. -/
def blockLines : List (Nat × Bytes) :=
  [(1, [92, 123, 97, 123, 50, 125, 123, 34, 125, 34]), (2, [35, 32, 123]), (3, [125, 125, 98])]

/-- The second and the third line of the rule start inside its action block. -/
theorem scanLines_blockLines :
    (∃ tree, (Pattern.parse [] (joinLines blockLines) .empty).1 = .ok tree) ∧
    Stand.linewise ⟨.pattern, .own⟩ (joinLines blockLines) = true ∧
    InsideAction (Pattern.lex (joinLines blockLines)).items (lineStart blockLines 1) ∧
    InsideAction (Pattern.lex (joinLines blockLines)).items (lineStart blockLines 2) ∧
    ∃ finished, RuleFile.Rules.finish { scan := scanLines {} blockLines } = .ok finished := by
  have hlex : Pattern.lex (joinLines blockLines) =
      ⟨[(.byte 123, ⟨0, 2⟩), (.name [97], ⟨2, 3⟩), (.repetition 2 (some 2), ⟨3, 6⟩),
        (.action [34, 125, 34, 10, 35, 32, 123, 10, 125], ⟨6, 17⟩), (.name [98], ⟨17, 18⟩)],
        none⟩ :=
    Pattern.Lexed.lex_eq <| .item rfl <| .item rfl <| .item rfl <| .item rfl <| .item rfl <|
      .ended _
  have hparse : (Pattern.parse [] (joinLines blockLines) .empty).1 =
      .ok (.concat (.concat (.concat (.byte 123) (.concat (.byte 97) (.byte 97))) (.action 0))
        (.byte 98)) := by
    rw [Pattern.parse, Pattern.tokenize, hlex]
    cbv
  have hlines : Stand.linewise ⟨.pattern, .own⟩ (joinLines blockLines) = true := by decide
  obtain ⟨hstarts, hfinish⟩ := scanLines_agrees_with_parse hparse hlines
  obtain ⟨finished, hfinished, -⟩ := hfinish { scan := scanLines {} blockLines } rfl
  exact ⟨⟨_, hparse⟩, hlines, (hstarts 1 (by decide)).mp (by decide),
    (hstarts 2 (by decide)).mp (by decide), finished, hfinished⟩

/-- One line with a control character: a backslash, the letter `c` and a brace. -/
def controlLines : List (Nat × Bytes) := [(1, [92, 99, 123])]

/-- An action block with a literal that goes on in the second line, with a brace there. -/
def literalLines : List (Nat × Bytes) := [(1, [123, 34]), (2, [125, 34]), (3, [125])]

/-- Both rules are accepted as patterns. The first one has no action block, but cannot be ended; the
last line of the second one starts inside its action block, but no brace is open there. -/
theorem scanLines_disagrees :
    ((∃ tree, (Pattern.parse [] (joinLines controlLines) .empty).1 = .ok tree) ∧
      ∀ finished, RuleFile.Rules.finish { scan := scanLines {} controlLines } ≠ .ok finished) ∧
    (∃ tree, (Pattern.parse [] (joinLines literalLines) .empty).1 = .ok tree) ∧
      ¬ ((scanLines {} (literalLines.take 2)).depth ≠ 0 ↔
        InsideAction (Pattern.lex (joinLines literalLines)).items (lineStart literalLines 2)) := by
  have hcontrol : (Pattern.parse [] [92, 99, 123] .empty).1 = .ok (.byte 27) := by cbv
  have hliteral : (Pattern.parse [] [123, 34, 10, 125, 34, 10, 125] .empty).1 =
      .ok (.action 0) := by cbv
  have hlex : Pattern.lex (joinLines literalLines) =
      ⟨[(.action [34, 10, 125, 34, 10], ⟨0, 7⟩)], none⟩ :=
    Pattern.Lexed.lex_eq <| .item rfl <| .ended _
  refine ⟨⟨⟨_, hcontrol⟩, fun finished h => ?_⟩, ⟨_, hliteral⟩, fun hiff => ?_⟩
  · have hopen : RuleFile.Rules.finish { scan := scanLines {} controlLines } =
        .error (.unterminatedAction 1) := rfl
    rw [hopen] at h
    simp at h
  · have hinside : InsideAction (Pattern.lex (joinLines literalLines)).items
        (lineStart literalLines 2) := by
      rw [hlex]
      exact ⟨_, _, List.mem_singleton_self _, by decide, by decide⟩
    exact hiff.mpr hinside rfl

end BraceScan

end ActionRegex
