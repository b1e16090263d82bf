import ActionRegex.Text.Bytes

/-!
# Sets of bytes

A set of bytes is a bitmap with one bit per byte, so turning it into a list gives its members in
ascending order without repetition. The named sets of the pattern dialect (`\w`, `\W`, `\s`, `\S`,
`\d`, `\D` and `.`) are defined here.
-/

namespace ActionRegex

/-- A set of bytes. -/
structure ByteSet where
  bits : BitVec 256
  deriving DecidableEq, Inhabited

namespace ByteSet

/-! ## Operations -/

def empty : ByteSet := ⟨0⟩

def contains (set : ByteSet) (b : UInt8) : Bool := set.bits.getLsbD b.toNat

def singleton (b : UInt8) : ByteSet := ⟨BitVec.twoPow 256 b.toNat⟩

def union (s t : ByteSet) : ByteSet := ⟨s.bits ||| t.bits⟩

def insert (set : ByteSet) (b : UInt8) : ByteSet := set.union (singleton b)

/-- The bytes that are not in the set. -/
def complement (set : ByteSet) : ByteSet := ⟨~~~set.bits⟩

/-- The set of the bytes in a list. -/
def ofList (bytes : Bytes) : ByteSet := bytes.foldl insert empty

/-- All bytes in ascending order. -/
def alphabet : Bytes := (List.range 256).map UInt8.ofNat

/-- The bytes from `first` to `last`, both included. -/
def range (first last : UInt8) : ByteSet :=
  ofList (alphabet.filter fun b => first ≤ b && b ≤ last)

/-- The members in ascending order. -/
def toList (set : ByteSet) : Bytes := alphabet.filter set.contains

/-- The number of members. -/
def size (set : ByteSet) : Nat := set.toList.length

def isEmpty (set : ByteSet) : Bool := set.bits == 0

/-! ## Membership -/

@[simp] theorem contains_empty (b : UInt8) : empty.contains b = false := by
  simp [contains, empty]

@[simp] theorem contains_union (s t : ByteSet) (b : UInt8) :
    (s.union t).contains b = (s.contains b || t.contains b) := by
  simp [contains, union]

@[simp] theorem contains_singleton (a b : UInt8) :
    (singleton a).contains b = decide (a = b) := by
  have hb := b.toNat_lt
  simp [contains, singleton, BitVec.getLsbD_twoPow, UInt8.toNat_inj,
    show a.toNat < 256 from a.toNat_lt]

@[simp] theorem contains_insert (set : ByteSet) (a b : UInt8) :
    (set.insert a).contains b = (set.contains b || decide (a = b)) := by
  simp [insert]

@[simp] theorem contains_complement (set : ByteSet) (b : UInt8) :
    set.complement.contains b = !set.contains b := by
  simp [contains, complement, show b.toNat < 256 from b.toNat_lt]

theorem mem_alphabet (b : UInt8) : b ∈ alphabet :=
  List.mem_map.mpr ⟨b.toNat, List.mem_range.mpr b.toNat_lt, UInt8.ofNat_toNat⟩

@[simp] theorem mem_toList {set : ByteSet} {b : UInt8} :
    b ∈ set.toList ↔ set.contains b = true := by
  simp [toList, mem_alphabet]

/-! ## Named sets -/

/-- `\w`: ASCII letters, digits and the underscore. -/
def word : ByteSet :=
  (((range 0x61 0x7a).union (range 0x41 0x5a)).union (range 0x30 0x39)).insert Ascii.underscore

/-- `\s`: space and tab. Line ends do not belong to it. -/
def space : ByteSet := ofList [Ascii.space, Ascii.tab]

/-- `\d`: the ASCII digits. -/
def digit : ByteSet := range 0x30 0x39

/-- `.`: every byte but the newline. -/
def dot : ByteSet := (singleton Ascii.newline).complement

/-- The set that an escaped letter stands for. -/
def ofEscape? (b : UInt8) : Option ByteSet :=
  if b = Ascii.ofChar 'w' then some word
  else if b = Ascii.ofChar 'W' then some word.complement
  else if b = Ascii.ofChar 's' then some space
  else if b = Ascii.ofChar 'S' then some space.complement
  else if b = Ascii.ofChar 'd' then some digit
  else if b = Ascii.ofChar 'D' then some digit.complement
  else none

/-- The members in decimal, in braces: `\x7b0, 255\x7d`. -/
def display (set : ByteSet) : String :=
  "\x7b" ++ ", ".intercalate (set.toList.map fun b => toString b.toNat) ++ "\x7d"

end ByteSet

end ActionRegex
