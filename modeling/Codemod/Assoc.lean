/-!
# Association lists

Finite maps that keep the order in which keys were first added.
-/

namespace Codemod

structure Assoc (κ ν : Type) where
  entries : List (κ × ν)
deriving DecidableEq, Repr

namespace Assoc

variable {κ ν : Type} [DecidableEq κ]

def empty : Assoc κ ν := ⟨[]⟩

def findEntry (key : κ) : List (κ × ν) → Option ν
  | [] => none
  | (other, value) :: rest => if key = other then some value else findEntry key rest

def find? (map : Assoc κ ν) (key : κ) : Option ν :=
  findEntry key map.entries

def contains (map : Assoc κ ν) (key : κ) : Bool :=
  (map.find? key).isSome

def keys (map : Assoc κ ν) : List κ :=
  map.entries.map Prod.fst

def size (map : Assoc κ ν) : Nat :=
  map.entries.length

/-- Changes the value of one key; a key without a value is added last. -/
def alterEntries (key : κ) (change : Option ν → ν) : List (κ × ν) → List (κ × ν)
  | [] => [(key, change none)]
  | (other, value) :: rest =>
    if key = other then (other, change (some value)) :: rest
    else (other, value) :: alterEntries key change rest

def alter (map : Assoc κ ν) (key : κ) (change : Option ν → ν) : Assoc κ ν :=
  ⟨alterEntries key change map.entries⟩

def insert (map : Assoc κ ν) (key : κ) (value : ν) : Assoc κ ν :=
  map.alter key fun _ => value

private theorem findEntry_alterEntries (key other : κ) (change : Option ν → ν)
    (entries : List (κ × ν)) :
    findEntry other (alterEntries key change entries) =
      if other = key then some (change (findEntry key entries)) else findEntry other entries := by
  induction entries with
  | nil => simp [alterEntries, findEntry]
  | cons entry rest ih =>
    simp only [alterEntries, findEntry]
    grind [findEntry]

@[simp] theorem find?_empty (key : κ) : (empty : Assoc κ ν).find? key = none := rfl

theorem find?_alter (map : Assoc κ ν) (key other : κ) (change : Option ν → ν) :
    (map.alter key change).find? other =
      if other = key then some (change (map.find? key)) else map.find? other :=
  findEntry_alterEntries key other change map.entries

@[simp] theorem find?_insert (map : Assoc κ ν) (key other : κ) (value : ν) :
    (map.insert key value).find? other = if other = key then some value else map.find? other :=
  find?_alter map key other _

end Assoc

end Codemod
