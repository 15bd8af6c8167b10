import Mathlib.Data.List.Basic
import Mathlib.Data.List.Forall2
import Mathlib.Data.List.Induction
import Mathlib.Data.List.Nodup
import Mathlib.Data.List.Perm.Subperm
import PathAlias.OrderedMap

/-!
Contract: maps that are built by inserting entries, or from other maps.

Owns:
- placing entries one after another, where every key is new;
- the law that inserting the entries of a map in their order builds it again;
- the place and the value that a key takes from entries that repeat it;
- equality up to order as a permutation of the entries;
- a map with one entry less, and a map with its values changed.

Does not own: what one insertion does to the keys (`PathAlias.OrderedMap`).
-/

set_option autoImplicit false

universe u v

namespace PathAlias

variable {Key : Type u} {Value : Type v}

theorem placeEntry_of_not_mem [DecidableEq Key] {key : Key} (value : Value) {entries : List (Key × Value)}
    (fresh : key ∉ entries.map Prod.fst) :
    placeEntry key value entries = entries ++ [(key, value)] := by
  induction entries with
  | nil => rfl
  | cons entry rest inductionHypothesis =>
      rw [List.map_cons, List.mem_cons, not_or] at fresh
      unfold placeEntry
      rw [if_neg (fun same => fresh.1 same.symm), inductionHypothesis fresh.2, List.cons_append]

/-- Entries whose keys are all new are placed behind the ones that are there. -/
theorem foldl_placeEntry [DecidableEq Key] (placed entries : List (Key × Value))
    (distinct : ((placed ++ entries).map Prod.fst).Nodup) :
    entries.foldl (fun kept entry => placeEntry entry.1 entry.2 kept) placed
      = placed ++ entries := by
  induction entries generalizing placed with
  | nil => exact (List.append_nil placed).symm
  | cons entry rest inductionHypothesis =>
      have fresh : entry.1 ∉ placed.map Prod.fst := by
        intro present
        rw [List.map_append, List.nodup_append] at distinct
        exact distinct.2.2 _ present entry.1 (by simp) rfl
      have moved : placed ++ [entry] ++ rest = placed ++ entry :: rest := by simp
      rw [List.foldl_cons, placeEntry_of_not_mem entry.2 fresh,
        inductionHypothesis (placed ++ [entry]) (by rw [moved]; exact distinct), moved]

/-- Entries with one key and related values are placed alike. -/
theorem forall₂_placeEntry {Other : Type v} [DecidableEq Key] {Related : Value → Other → Prop}
    {left : List (Key × Value)} {right : List (Key × Other)}
    (alike : List.Forall₂ (fun entry other => entry.1 = other.1 ∧ Related entry.2 other.2)
      left right)
    {entry : Key × Value} {other : Key × Other} (same : entry.1 = other.1 ∧ Related entry.2 other.2) :
    List.Forall₂ (fun entry other => entry.1 = other.1 ∧ Related entry.2 other.2)
      (placeEntry entry.1 entry.2 left) (placeEntry other.1 other.2 right) := by
  induction alike with
  | nil => exact .cons same .nil
  | cons first rest inductionHypothesis =>
      rw [same.1] at inductionHypothesis ⊢
      unfold placeEntry
      rw [first.1]
      split
      · exact .cons ⟨rfl, same.2⟩ rest
      · exact .cons ⟨rfl, first.2⟩ inductionHypothesis

theorem lookup_cons_eq_ite [DecidableEq Key] (entry : Key × Value) (rest : List (Key × Value))
    (key : Key) :
    (entry :: rest).lookup key = if key = entry.1 then some entry.2 else rest.lookup key := by
  by_cases same : key = entry.1
  · rw [if_pos same, List.lookup_cons, beq_iff_eq.2 same]
  · rw [if_neg same, List.lookup_cons, beq_eq_false_iff_ne.2 same]

theorem lookup_placeEntry [DecidableEq Key] (key : Key) (value : Value)
    (entries : List (Key × Value)) (other : Key) :
    (placeEntry key value entries).lookup other
      = if other = key then some value else entries.lookup other := by
  induction entries with
  | nil => exact lookup_cons_eq_ite (key, value) [] other
  | cons entry rest inductionHypothesis =>
      unfold placeEntry
      split
      · rename_i isPlace
        subst isPlace
        rw [lookup_cons_eq_ite, lookup_cons_eq_ite]
        split <;> rfl
      · rename_i different
        rw [lookup_cons_eq_ite, lookup_cons_eq_ite, inductionHypothesis]
        by_cases isFirst : other = entry.1
        · rw [if_pos isFirst, if_pos isFirst, if_neg]
          exact fun isKey => different (isFirst.symm.trans isKey)
        · rw [if_neg isFirst, if_neg isFirst]

namespace OrderedMap

theorem ext_entries {left right : OrderedMap Key Value} (same : left.entries = right.entries) :
    left = right := by
  cases left
  cases right
  cases same
  rfl

theorem entries_ofList [DecidableEq Key] (entries : List (Key × Value)) :
    (ofList entries).entries
      = entries.foldl (fun kept entry => placeEntry entry.1 entry.2 kept) [] :=
  (List.foldl_hom OrderedMap.entries fun _ _ => rfl).symm

/-- The entries of a map build it again. -/
@[simp]
theorem ofList_entries [DecidableEq Key] (map : OrderedMap Key Value) : ofList map.entries = map := by
  apply ext_entries
  rw [entries_ofList]
  exact foldl_placeEntry [] map.entries map.distinctKeys

/-! ## Repeated keys -/

/-- A map lists each key of some entries in the place where they have it first,
with the value that they have for it last. -/
structure Collects [DecidableEq Key] (map : OrderedMap Key Value)
    (entries : List (Key × Value)) : Prop where
  places : map.entries.map Prod.fst = (entries.map Prod.fst).eraseDups
  values : ∀ earlier key value later, entries = earlier ++ (key, value) :: later →
    key ∉ later.map Prod.fst → map.get? key = some value

theorem Collects.mem_keys_iff [DecidableEq Key] {map : OrderedMap Key Value}
    {entries : List (Key × Value)} (collects : map.Collects entries) {key : Key} :
    key ∈ map.entries.map Prod.fst ↔ key ∈ entries.map Prod.fst := by
  rw [collects.places, List.mem_eraseDups]

theorem mem_of_get?_eq_some [DecidableEq Key] {map : OrderedMap Key Value} {key : Key}
    {value : Value} (held : map.get? key = some value) : (key, value) ∈ map.entries := by
  obtain ⟨before, after, divided, -⟩ := List.lookup_eq_some_iff.1 held
  rw [divided]
  exact List.mem_append_right before List.mem_cons_self

theorem get?_insert [DecidableEq Key] (map : OrderedMap Key Value) (key : Key) (value : Value)
    (other : Key) :
    (map.insert key value).get? other = if other = key then some value else map.get? other :=
  lookup_placeEntry key value map.entries other

theorem Collects.insert [DecidableEq Key] {map : OrderedMap Key Value}
    {entries : List (Key × Value)} (collects : map.Collects entries) (key : Key) (value : Value) :
    (map.insert key value).Collects (entries ++ [(key, value)]) where
  places := by
    have placed : (map.insert key value).entries.map Prod.fst
        = if key ∈ map.entries.map Prod.fst then map.entries.map Prod.fst
          else map.entries.map Prod.fst ++ [key] := map_fst_placeEntry key value map.entries
    rw [placed, collects.places, List.map_append, List.map_singleton, List.eraseDups_append]
    by_cases known : key ∈ entries.map Prod.fst
    · rw [if_pos (List.mem_eraseDups.2 known)]
      simp [List.removeAll, known]
    · rw [if_neg (fun listed => known (List.mem_eraseDups.1 listed))]
      simp [List.removeAll, known, List.eraseDups_cons]
  values := by
    intro earlier other otherValue later divided unrepeated
    rw [get?_insert]
    rcases List.eq_nil_or_concat' later with rfl | ⟨others, last, rfl⟩
    · obtain ⟨-, isLast⟩ := List.append_inj' divided rfl
      cases isLast
      exact if_pos rfl
    · -- the new entry is behind the one that counts, and has another key
      have regrouped : entries ++ [(key, value)]
          = (earlier ++ (other, otherValue) :: others) ++ [last] := by
        rw [divided]
        simp
      obtain ⟨front, isLast⟩ := List.append_inj' regrouped rfl
      cases isLast
      rw [List.map_append, List.mem_append, not_or] at unrepeated
      have different : other ≠ key := by simpa using unrepeated.2
      rw [if_neg different]
      exact collects.values earlier other otherValue others front unrepeated.1

/-- Entries that are inserted one after another leave each key in its first
place with its last value. -/
theorem collects_ofList [DecidableEq Key] (entries : List (Key × Value)) :
    (ofList entries).Collects entries := by
  induction entries using List.reverseRecOn with
  | nil => exact ⟨rfl, fun earlier key value later divided => by simp at divided⟩
  | append_singleton front last inductionHypothesis =>
      have inserted : ofList (front ++ [last]) = (ofList front).insert last.1 last.2 :=
        List.foldl_concat ..
      rw [inserted]
      exact inductionHypothesis.insert last.1 last.2

/-! ## Equality up to order -/

theorem get?_eq_some_iff [DecidableEq Key] {map : OrderedMap Key Value} {key : Key}
    {value : Value} : map.get? key = some value ↔ (key, value) ∈ map.entries := by
  constructor
  · exact mem_of_get?_eq_some
  · intro member
    obtain ⟨before, after, divided⟩ := List.append_of_mem member
    refine List.lookup_eq_some_iff.2 ⟨before, after, divided, ?_⟩
    intro entry isBefore
    -- an entry in front with this key would give it twice
    have distinct := map.distinctKeys
    rw [divided, List.map_append, List.nodup_append] at distinct
    have different : entry.1 ≠ key :=
      distinct.2.2 entry.1 (List.mem_map_of_mem isBefore) key (by simp)
    simpa using different.symm

theorem entries_nodup (map : OrderedMap Key Value) : map.entries.Nodup :=
  List.Nodup.of_map Prod.fst map.distinctKeys

/-- Two maps are equal up to order exactly when their entries are a permutation
of each other. -/
theorem sameEntries_iff_perm [DecidableEq Key] [DecidableEq Value]
    {left right : OrderedMap Key Value} :
    left.sameEntries right = true ↔ left.entries.Perm right.entries := by
  have listed : left.sameEntries right = true
      ↔ left.entries.length = right.entries.length ∧ left.entries ⊆ right.entries := by
    unfold sameEntries size
    rw [Bool.and_eq_true, decide_eq_true_iff]
    simp [get?_eq_some_iff, List.subset_def]
  rw [listed]
  constructor
  · rintro ⟨sameLength, included⟩
    exact (List.subperm_of_subset left.entries_nodup included).perm_of_length_le
      (Nat.le_of_eq sameLength.symm)
  · intro permutation
    exact ⟨permutation.length_eq, permutation.subset⟩

/-! ## Maps made from a map -/

def eraseAt (map : OrderedMap Key Value) (place : Nat) : OrderedMap Key Value where
  entries := map.entries.eraseIdx place
  distinctKeys := map.distinctKeys.sublist ((List.eraseIdx_sublist map.entries place).map Prod.fst)

def mapValues {Other : Type v} (change : Value → Other) (map : OrderedMap Key Value) :
    OrderedMap Key Other where
  entries := map.entries.map fun entry => (entry.1, change entry.2)
  distinctKeys := by
    rw [List.map_map]
    exact map.distinctKeys

end OrderedMap

end PathAlias
