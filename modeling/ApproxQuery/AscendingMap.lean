/-! Finite maps as association lists in ascending key order. -/
namespace ApproxQuery

/-- Entries in ascending order of their keys. -/
structure AscendingMap (κ α : Type) where
  entries : List (κ × α)
deriving Inhabited, Repr

namespace AscendingMap

variable {κ α : Type} [LT κ] [DecidableLT κ] [DecidableEq κ]

def empty : AscendingMap κ α := ⟨[]⟩

/-- The value of the first entry with the key. -/
def findIn (key : κ) : List (κ × α) → Option α
  | [] => none
  | (k, value) :: rest => if k = key then some value else findIn key rest

def find? (m : AscendingMap κ α) (key : κ) : Option α := findIn key m.entries

def contains (m : AscendingMap κ α) (key : κ) : Bool := (m.find? key).isSome

def insertIn (key : κ) (value : α) : List (κ × α) → List (κ × α)
  | [] => [(key, value)]
  | (k, old) :: rest =>
    if k = key then (key, value) :: rest
    else if key < k then (key, value) :: (k, old) :: rest
    else (k, old) :: insertIn key value rest

/-- Sets the value of a key. -/
def insert (m : AscendingMap κ α) (key : κ) (value : α) : AscendingMap κ α :=
  ⟨insertIn key value m.entries⟩

/-- Removes a key. -/
def erase (m : AscendingMap κ α) (key : κ) : AscendingMap κ α :=
  ⟨m.entries.filter fun entry => entry.1 ≠ key⟩

/-- Changes the value of a key, if it has one. -/
def modify (m : AscendingMap κ α) (key : κ) (change : α → α) : AscendingMap κ α :=
  match m.find? key with
  | some value => m.insert key (change value)
  | none => m

def keys (m : AscendingMap κ α) : List κ := m.entries.map Prod.fst

def values (m : AscendingMap κ α) : List α := m.entries.map Prod.snd

def size (m : AscendingMap κ α) : Nat := m.entries.length

def isEmpty (m : AscendingMap κ α) : Bool := m.entries.isEmpty

/-- Adds values at the end of a key's list. -/
def append (m : AscendingMap κ (List α)) (key : κ) (more : List α) : AscendingMap κ (List α) :=
  m.insert key ((m.find? key).getD [] ++ more)

theorem findIn_insertIn (key other : κ) (value : α) (entries : List (κ × α)) :
    findIn other (insertIn key value entries)
      = if key = other then some value else findIn other entries := by
  induction entries with
  | nil => simp [insertIn, findIn]
  | cons entry rest ih =>
    rcases entry with ⟨k, old⟩
    unfold insertIn
    split
    · rename_i same
      subst same
      by_cases h : k = other <;> simp [findIn, h]
    · split
      · simp [findIn]
      · rename_i different _
        by_cases h : k = other
        · have h' : key ≠ other := fun e => different (h.trans e.symm)
          simp [findIn, h, h']
        · simp [findIn, h, ih]

/-- After `insert` a key has the new value, and every other key the value it had. -/
theorem find?_insert (m : AscendingMap κ α) (key other : κ) (value : α) :
    (m.insert key value).find? other = if key = other then some value else m.find? other :=
  findIn_insertIn key other value m.entries

omit [LT κ] [DecidableLT κ] in
/-- After `erase` a key has no value, and every other key the value it had. -/
theorem find?_erase (m : AscendingMap κ α) (key other : κ) :
    (m.erase key).find? other = if key = other then none else m.find? other := by
  rcases m with ⟨entries⟩
  simp only [find?, erase]
  induction entries with
  | nil => simp [findIn]
  | cons entry rest ih =>
    rcases entry with ⟨k, old⟩
    by_cases same : k = key
    · subst same
      by_cases h : k = other
      · subst h; simpa [findIn] using ih
      · simpa [findIn, h] using ih
    · by_cases h : k = other
      · subst h
        have h' : key ≠ k := fun e => same e.symm
        simp [findIn, same, h']
      · simpa [findIn, same, h] using ih

end AscendingMap

end ApproxQuery
