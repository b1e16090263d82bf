/-!
# Ascending lists

Sets of numbers, edges and symbols are kept as lists in ascending order without repetition, and maps
as lists of key and value with ascending keys. The order is the one in which automata explore their
symbols and in which everything is printed. What an operation does to membership holds for every
list; that it keeps the order is a statement of its own.
-/

namespace ActionRegex.Ascending

variable {α κ β : Type} [LT α] [DecidableLT α] [DecidableEq α]
  [LT κ] [DecidableLT κ] [DecidableEq κ]

/-! ## Sets -/

/-- Puts an element in its place, unless it is there already. -/
def insert (a : α) : List α → List α
  | [] => [a]
  | b :: rest => if a < b then a :: b :: rest else if a = b then b :: rest else b :: insert a rest

/-- The elements of both lists. -/
def union (xs ys : List α) : List α := ys.foldl (fun acc y => insert y acc) xs

/-- The elements of a list, in order and once each. -/
def ofList (xs : List α) : List α := union [] xs

@[simp] theorem mem_insert {a x : α} {l : List α} : x ∈ insert a l ↔ x = a ∨ x ∈ l := by
  induction l with
  | nil => simp [insert]
  | cons b rest ih =>
    simp only [insert]
    split
    · simp
    · split
      · next h => subst h; simp
      · simp only [List.mem_cons, ih]
        constructor
        · rintro (h | h | h) <;> simp [h]
        · rintro (h | h | h) <;> simp [h]

@[simp] theorem mem_union {x : α} {xs ys : List α} : x ∈ union xs ys ↔ x ∈ xs ∨ x ∈ ys := by
  induction ys generalizing xs with
  | nil => simp [union]
  | cons y ys ih =>
    have h : union xs (y :: ys) = union (insert y xs) ys := rfl
    rw [h, ih, mem_insert, List.mem_cons]
    constructor
    · rintro ((h | h) | h) <;> simp [h]
    · rintro (h | h | h) <;> simp [h]

@[simp] theorem mem_ofList {x : α} {xs : List α} : x ∈ ofList xs ↔ x ∈ xs := by
  simp [ofList]

/-! ## Maps -/

/-- The value of a key. -/
def get? (k : κ) : List (κ × β) → Option β
  | [] => none
  | (k', v) :: rest => if k = k' then some v else get? k rest

/-- Sets the value of a key, in the key's place. -/
def put (k : κ) (v : β) : List (κ × β) → List (κ × β)
  | [] => [(k, v)]
  | (k', v') :: rest =>
    if k < k' then (k, v) :: (k', v') :: rest
    else if k = k' then (k, v) :: rest
    else (k', v') :: put k v rest

/-- Removes a key. -/
def erase (k : κ) (entries : List (κ × β)) : List (κ × β) :=
  entries.filter fun entry => entry.1 ≠ k

theorem get?_put_self (k : κ) (v : β) (entries : List (κ × β)) :
    get? k (put k v entries) = some v := by
  induction entries with
  | nil => simp [put, get?]
  | cons entry rest ih =>
    obtain ⟨k', v'⟩ := entry
    simp only [put]
    split
    · simp [get?]
    · split
      · simp [get?]
      · next h => simp [get?, h, ih]

theorem get?_put_of_ne {k k' : κ} (h : k' ≠ k) (v : β) (entries : List (κ × β)) :
    get? k' (put k v entries) = get? k' entries := by
  induction entries with
  | nil => simp [put, get?, h]
  | cons entry rest ih =>
    obtain ⟨k'', v''⟩ := entry
    simp only [put]
    split
    · simp [get?, h]
    · split
      · next heq => subst heq; simp [get?, h]
      · simp [get?, ih]

end ActionRegex.Ascending
