/-!
# Insertion-ordered dictionaries

A `Dict` maps texts to values and remembers the order in which its keys first appeared. Setting a
key that is present replaces the value in place; setting a new key appends it.
-/

namespace TensorGraph

/-- A dictionary whose keys are kept in order of first appearance. -/
structure Dict (β : Type) where
  entries : List (String × β)
deriving Repr, DecidableEq

namespace Dict

variable {β : Type}

/-- The dictionary without keys. -/
def empty : Dict β := ⟨[]⟩

/-- The value of a key. -/
def get? (d : Dict β) (key : String) : Option β := d.entries.lookup key

/-- Whether a key is present. -/
def contains (d : Dict β) (key : String) : Bool := (d.get? key).isSome

/-- The keys, in order of first appearance. -/
def keys (d : Dict β) : List String := d.entries.map Prod.fst

/-- Replace the value of a key in place, or append the key. -/
def setEntries (key : String) (value : β) : List (String × β) → List (String × β)
  | [] => [(key, value)]
  | (k, v) :: rest => if k = key then (k, value) :: rest else (k, v) :: setEntries key value rest

/-- The dictionary with a key set to a value. -/
def set (d : Dict β) (key : String) (value : β) : Dict β := ⟨setEntries key value d.entries⟩

@[simp] theorem get?_empty (key : String) : (empty : Dict β).get? key = none := rfl

private theorem lookup_setEntries (key other : String) (value : β) (entries : List (String × β)) :
    (setEntries key value entries).lookup other =
      if other = key then some value else entries.lookup other := by
  induction entries with
  | nil =>
    by_cases h : other = key
    · simp [setEntries, h]
    · simp [setEntries, List.lookup_cons, beq_false_of_ne h, h]
  | cons entry rest ih =>
    obtain ⟨k, v⟩ := entry
    simp only [setEntries]
    by_cases hk : k = key
    · -- the entry is the one to overwrite
      subst hk
      by_cases ho : other = k
      · simp [ho]
      · simp [List.lookup_cons, beq_false_of_ne ho, ho]
    · -- the entry stays, and the key is looked for after it
      by_cases ho : other = k
      · simp [hk, ho]
      · simp [hk, List.lookup_cons, beq_false_of_ne ho, ih]

/-- Setting a key changes what is found under that key and nothing else. -/
theorem get?_set (d : Dict β) (key other : String) (value : β) :
    (d.set key value).get? other = if other = key then some value else d.get? other :=
  lookup_setEntries key other value d.entries

private theorem map_fst_setEntries (key : String) (value : β) (entries : List (String × β)) :
    (setEntries key value entries).map Prod.fst =
      if key ∈ entries.map Prod.fst then entries.map Prod.fst
      else entries.map Prod.fst ++ [key] := by
  induction entries with
  | nil => simp [setEntries]
  | cons entry rest ih =>
    obtain ⟨k, v⟩ := entry
    simp only [setEntries]
    by_cases hk : k = key
    · simp [hk]
    · -- the key stands later or nowhere, so the first one is kept
      simp only [if_neg hk, List.map_cons, ih, List.mem_cons, Ne.symm hk, false_or]
      split <;> simp

/-- Setting a key that is present keeps the order of keys; a new key comes last. -/
theorem keys_set (d : Dict β) (key : String) (value : β) :
    (d.set key value).keys = if key ∈ d.keys then d.keys else d.keys ++ [key] :=
  map_fst_setEntries key value d.entries

/-- Set several keys in turn. -/
def setAll (d : Dict β) (entries : List (String × β)) : Dict β :=
  entries.foldl (fun acc entry => acc.set entry.1 entry.2) d

/-- A dictionary from entries, a later value of a key replacing an earlier one. -/
def ofList (entries : List (String × β)) : Dict β := empty.setAll entries

/-- Equality up to the order of keys, values being compared by `eq`. -/
def sameBy (eq : β → β → Bool) (d e : Dict β) : Bool :=
  d.entries.length == e.entries.length &&
    d.entries.all fun entry =>
      match e.get? entry.1 with
      | some v => eq entry.2 v
      | none => false

end Dict

end TensorGraph
