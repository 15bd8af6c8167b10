/-!
Contract: maps that keep their keys in the order of first insertion.

Owns:
- placing an entry in a list of entries, and its effect on the keys;
- the type `OrderedMap`, whose keys are pairwise distinct;
- equality of two maps up to the order of their entries.

Does not own: what keys and values are.
-/

set_option autoImplicit false

universe u v

namespace PathAlias

variable {Key : Type u} {Value : Type v}

/-- An entry placed in a list of entries: in the position of the first entry
with its key, or at the end. -/
def placeEntry [DecidableEq Key] (key : Key) (value : Value) :
    List (Key × Value) → List (Key × Value)
  | [] => [(key, value)]
  | (firstKey, firstValue) :: rest =>
      if firstKey = key then (key, value) :: rest
      else (firstKey, firstValue) :: placeEntry key value rest

/-- Placing an entry adds its key at the end, unless it is there already. -/
theorem map_fst_placeEntry [DecidableEq Key] (key : Key) (value : Value)
    (entries : List (Key × Value)) :
    (placeEntry key value entries).map Prod.fst
      = if key ∈ entries.map Prod.fst then entries.map Prod.fst
        else entries.map Prod.fst ++ [key] := by
  induction entries with
  | nil => simp [placeEntry]
  | cons entry rest inductionHypothesis =>
      obtain ⟨firstKey, firstValue⟩ := entry
      by_cases same : firstKey = key
      · simp [placeEntry, same]
      · have different : ¬ key = firstKey := fun equal => same equal.symm
        simp only [placeEntry, same, if_false, List.map_cons, inductionHypothesis, List.mem_cons,
          different, false_or]
        split <;> simp

/-- A map that lists its entries in the order in which their keys were first
inserted. -/
structure OrderedMap (Key : Type u) (Value : Type v) where
  entries : List (Key × Value)
  distinctKeys : (entries.map Prod.fst).Nodup

namespace OrderedMap

instance [DecidableEq Key] [DecidableEq Value] : DecidableEq (OrderedMap Key Value) :=
  fun left right =>
    if same : left.entries = right.entries then
      isTrue (by cases left; cases right; simp_all)
    else isFalse (fun equal => same (congrArg entries equal))

def empty : OrderedMap Key Value := ⟨[], List.nodup_nil⟩

def size (map : OrderedMap Key Value) : Nat := map.entries.length

/-- The map with a key set to a value.  A key that is there keeps its
position; a new one comes last. -/
def insert [DecidableEq Key] (map : OrderedMap Key Value) (key : Key) (value : Value) :
    OrderedMap Key Value where
  entries := placeEntry key value map.entries
  distinctKeys := by
    rw [map_fst_placeEntry]
    split
    · exact map.distinctKeys
    · rename_i fresh
      rw [List.nodup_append]
      exact ⟨map.distinctKeys, by simp,
        fun earlier present last isKey equal => by
          simp only [List.mem_singleton] at isKey
          exact fresh (isKey ▸ equal ▸ present)⟩

def ofList [DecidableEq Key] (entries : List (Key × Value)) : OrderedMap Key Value :=
  entries.foldl (fun map entry => map.insert entry.1 entry.2) empty

def get? [DecidableEq Key] (map : OrderedMap Key Value) (key : Key) : Option Value :=
  map.entries.lookup key

/-- Whether two maps hold the same entries, in whatever order. -/
def sameEntries [DecidableEq Key] [DecidableEq Value] (left right : OrderedMap Key Value) : Bool :=
  left.size = right.size
    && left.entries.all fun (key, value) => right.get? key = some value

end OrderedMap

end PathAlias
