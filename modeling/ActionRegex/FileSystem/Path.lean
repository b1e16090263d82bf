/-!
# Paths

A path is a list of segments with slashes between them, kept as written. What it names does not
depend on empty segments and on `.`, except that a leading `.` is kept when the path is taken apart.
-/

namespace ActionRegex

/-- A path. -/
structure Path where
  /-- Whether the path starts with a slash. -/
  absolute : Bool
  /-- What stands between the slashes after that. -/
  segments : List String
  deriving DecidableEq

namespace Path

/-- Splits a path at its slashes. -/
def ofString (text : String) : Path :=
  match text.splitOn "/" with
  | "" :: first :: rest => ⟨true, first :: rest⟩
  | segments => ⟨false, segments⟩

/-- The path as written. -/
def toString (path : Path) : String :=
  (if path.absolute then "/" else "") ++ "/".intercalate path.segments

/-! ## Parents -/

/-- Whether a segment names the directory that it stands in. -/
def isIdle (segment : String) : Bool := segment == "" || segment == "."

/-- The segments without the idle ones at their end. -/
def dropIdleEnd (segments : List String) : List String :=
  (segments.reverse.dropWhile isIdle).reverse

/-- The path without idle segments at its end. A leading `.` stays. -/
def trimEnd (path : Path) : Path :=
  match path.absolute, path.segments with
  | false, "." :: rest => ⟨false, "." :: dropIdleEnd rest⟩
  | absolute, segments => ⟨absolute, dropIdleEnd segments⟩

/-- Whether the path names nothing. -/
def isEmpty (path : Path) : Bool := !path.absolute && path.trimEnd.segments.isEmpty

/-- The path without its last segment. The root and the empty path have no parent. -/
def parent? (path : Path) : Option Path :=
  match path.trimEnd.segments with
  | [] => none
  | segments => some (trimEnd ⟨path.absolute, segments.dropLast⟩)

theorem length_dropIdleEnd_le (segments : List String) :
    (dropIdleEnd segments).length ≤ segments.length := by
  have h := (List.dropWhile_sublist isIdle (l := segments.reverse)).length_le
  simpa [dropIdleEnd] using h

theorem length_trimEnd_le (path : Path) : path.trimEnd.segments.length ≤ path.segments.length := by
  unfold trimEnd
  split
  · next rest _ h =>
    have := length_dropIdleEnd_le rest
    simp only [h, List.length_cons]
    omega
  · exact length_dropIdleEnd_le _

/-- A parent has fewer segments. -/
theorem length_parent?_lt {path parent : Path} (h : path.parent? = some parent) :
    parent.segments.length < path.segments.length := by
  unfold parent? at h
  have hle := length_trimEnd_le path
  split at h
  · simp at h
  · next segments hne =>
    obtain rfl := Option.some.inj h
    have hlen := length_trimEnd_le ⟨path.absolute, path.trimEnd.segments.dropLast⟩
    have hpos : 0 < path.trimEnd.segments.length :=
      List.length_pos_iff.mpr fun h => hne h
    simp only [List.length_dropLast] at hlen
    omega

/-! ## Written paths -/

/-- The directory of a file: its parent, or `.` for a bare name. -/
def directoryOf (file : String) : String :=
  match (ofString file).parent? with
  | none => "."
  | some parent => if parent.toString.isEmpty then "." else parent.toString

/-- The path of a name in a directory. An absolute name stands for itself. -/
def join (directory name : String) : String :=
  if name.startsWith "/" then name
  else if directory.isEmpty || directory.endsWith "/" then directory ++ name
  else directory ++ "/" ++ name

end Path

end ActionRegex
