/-!
Tables that keep their keys in the order in which they came. Setting a key that is present keeps
its place.
-/

namespace Mechanism

structure Table (α β : Type) where
  entries : List (α × β)

namespace Table

variable {α β : Type}

def empty : Table α β := ⟨[]⟩

instance : EmptyCollection (Table α β) := ⟨empty⟩

def keys (table : Table α β) : List α := table.entries.map (·.1)

def size (table : Table α β) : Nat := table.entries.length

def isEmpty (table : Table α β) : Bool := table.entries.isEmpty

variable [DecidableEq α]

def find? (table : Table α β) (key : α) : Option β :=
  (table.entries.find? fun entry => entry.1 = key).map (·.2)

def contains (table : Table α β) (key : α) : Bool := (table.find? key).isSome

def insertInto (key : α) (value : β) : List (α × β) → List (α × β)
  | [] => [(key, value)]
  | (other, old) :: rest =>
    if other = key then (key, value) :: rest else (other, old) :: insertInto key value rest

def insert (table : Table α β) (key : α) (value : β) : Table α β :=
  ⟨insertInto key value table.entries⟩

def erase (table : Table α β) (key : α) : Table α β :=
  ⟨table.entries.filter fun entry => entry.1 ≠ key⟩

@[simp] theorem find?_empty (key : α) : (empty : Table α β).find? key = none := rfl

theorem find?_insertInto (key wanted : α) (value : β) (entries : List (α × β)) :
    ((insertInto key value entries).find? fun entry => entry.1 = wanted).map (·.2) =
      if key = wanted then some value
      else (entries.find? fun entry => entry.1 = wanted).map (·.2) := by
  induction entries with
  | nil => by_cases same : key = wanted <;> simp [insertInto, same]
  | cons head tail ih =>
    obtain ⟨other, old⟩ := head
    unfold insertInto
    by_cases found : other = key
    · subst found
      by_cases same : other = wanted <;> simp [same]
    · by_cases here : other = wanted
      · subst here
        simp [found, Ne.symm found]
      · simpa [found, here] using ih

theorem find?_insert (table : Table α β) (key wanted : α) (value : β) :
    (table.insert key value).find? wanted =
      if key = wanted then some value else table.find? wanted :=
  find?_insertInto key wanted value table.entries

theorem find?_erase (table : Table α β) (key wanted : α) :
    (table.erase key).find? wanted = if key = wanted then none else table.find? wanted := by
  obtain ⟨entries⟩ := table
  unfold find? erase
  induction entries with
  | nil => simp
  | cons head tail ih =>
    obtain ⟨other, old⟩ := head
    by_cases gone : other = key
    · by_cases same : key = wanted
      · simp_all
      · have differs : other ≠ wanted := fun here => same (gone.symm.trans here)
        simp_all
    · by_cases here : other = wanted
      · subst here
        simp [gone, Ne.symm gone]
      · simpa [gone, here] using ih

end Table

end Mechanism
