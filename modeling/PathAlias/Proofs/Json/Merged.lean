import Mathlib.Data.List.Basic
import PathAlias.Json.Basic
import PathAlias.Proofs.OrderedMap

/-!
Contract: merging repeated members.

Owns:
- values in which no object names a member twice;
- the law that merging leaves them as they are.

Does not own: what becomes of members that are repeated.
-/

set_option autoImplicit false

namespace PathAlias.Json

/-- No object in the value names a member twice. -/
inductive NamesOnce : Json → Prop where
  | null : NamesOnce .null
  | boolean (value : Bool) : NamesOnce (.boolean value)
  | number (literal : Text) : NamesOnce (.number literal)
  | string (text : Text) : NamesOnce (.string text)
  | array {items : List Json} (each : ∀ item ∈ items, NamesOnce item) : NamesOnce (.array items)
  | object {members : List (Text × Json)} (distinct : (members.map Prod.fst).Nodup)
      (each : ∀ member ∈ members, NamesOnce member.2) : NamesOnce (.object members)

theorem mergedItems_eq_map (items : List Json) : mergedItems items = items.map merged := by
  induction items with
  | nil => rfl
  | cons item rest inductionHypothesis => rw [mergedItems, inductionHypothesis, List.map_cons]

theorem mergedMembers_eq_map (members : List (Text × Json)) :
    mergedMembers members = members.map fun member => (member.1, merged member.2) := by
  induction members with
  | nil => rfl
  | cons member rest inductionHypothesis =>
      rw [mergedMembers, inductionHypothesis, List.map_cons]

theorem merged_of_namesOnce {value : Json} (once : NamesOnce value) : merged value = value := by
  induction once with
  | null => rfl
  | boolean value => rfl
  | number literal => rfl
  | string text => rfl
  | array each inductionHypothesis =>
      rw [merged, mergedItems_eq_map]
      congr 1
      exact (List.map_congr_left inductionHypothesis).trans (List.map_id _)
  | @object members distinct each inductionHypothesis =>
      have kept : (members.map fun member => (member.1, merged member.2)) = members := by
        refine (List.map_congr_left fun member present => ?_).trans (List.map_id members)
        rw [inductionHypothesis member present]
        rfl
      rw [merged, mergedMembers_eq_map, kept, foldl_placeEntry [] members distinct,
        List.nil_append]

end PathAlias.Json
