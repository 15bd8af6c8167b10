import PathAlias.Configuration.Basic
import PathAlias.Configuration.Error

/-!
Contract: the aliases that specifiers are looked up in.

Owns:
- stems: what is left of an alias or a target without its wildcard;
- aliases in order of precedence, with pairwise distinct stems;
- the alias that a specifier falls under.

Does not own: what becomes of the specifier then.

The first alias whose stem starts a specifier wins, also over a later one with
a longer stem and also when it has no target.
-/

set_option autoImplicit false

namespace PathAlias

/-- The ending that stands for everything inside a directory. -/
def wildcard : Text := ['/', '*']

/-- A pattern without its wildcard: a wildcard at the end becomes a slash, and
every other text stays as it is. -/
def withoutWildcard (pattern : Text) : Text :=
  if wildcard.isSuffixOf pattern then pattern.dropLast else pattern

/-- One alias, ready for look-up. -/
structure Alias where
  pattern : Text
  /-- What a specifier under this alias starts with. -/
  stem : Text
  /-- What takes the place of the stem.  Without it, specifiers under the alias
  stay as they are. -/
  target : Option Text
  deriving DecidableEq, Repr

namespace Alias

/-- The alias of a pattern and its targets, of which only the first counts. -/
def ofTargets (pattern : Text) (targets : Targets) : Alias where
  pattern := pattern
  stem := withoutWildcard pattern
  target := (targets.bind List.head?).map withoutWildcard

def covers (candidate : Alias) (specifier : Text) : Bool :=
  candidate.stem.isPrefixOf specifier

end Alias

/-- Aliases in order of precedence, no two of them with one stem. -/
structure Aliases where
  toList : List Alias
  distinctStems : (toList.map Alias.stem).Nodup

namespace Aliases

instance : DecidableEq Aliases :=
  fun left right =>
    if same : left.toList = right.toList then
      isTrue (by cases left; cases right; simp_all)
    else isFalse (fun equal => same (congrArg toList equal))

def size (aliases : Aliases) : Nat := aliases.toList.length

def isEmpty (aliases : Aliases) : Bool := aliases.toList.isEmpty

/-- The first of some aliases whose stem is one of the given stems or that of
an alias before it. -/
def firstClash? : List Text → List Alias → Option Alias
  | _, [] => none
  | earlier, first :: rest =>
      if first.stem ∈ earlier then some first else firstClash? (first.stem :: earlier) rest

/-- Without a clash the stems are distinct, from each other and from the given
ones. -/
theorem nodup_of_firstClash?_eq_none {earlier : List Text} {candidates : List Alias}
    (clashFree : firstClash? earlier candidates = none) :
    (candidates.map Alias.stem).Nodup
      ∧ ∀ candidate ∈ candidates, candidate.stem ∉ earlier := by
  induction candidates generalizing earlier with
  | nil => simp
  | cons first rest inductionHypothesis =>
      simp only [firstClash?] at clashFree
      split at clashFree
      · simp at clashFree
      · rename_i fresh
        obtain ⟨distinct, apart⟩ := inductionHypothesis clashFree
        constructor
        · rw [List.map_cons, List.nodup_cons]
          refine ⟨fun repeated => ?_, distinct⟩
          obtain ⟨other, present, equal⟩ := List.mem_map.1 repeated
          exact apart other present (by simp [equal])
        · intro other present
          rcases List.mem_cons.1 present with rfl | later
          · exact fresh
          · exact fun known => apart other later (List.mem_cons_of_mem _ known)

/-- The aliases of a map, in its order.  There must be one, and no two may have
the same stem. -/
def ofMap (map : AliasMap) : Except ConfigurationError Aliases :=
  let candidates := map.entries.map fun (pattern, targets) => Alias.ofTargets pattern targets
  if candidates.isEmpty then .error .emptyPaths
  else
    match clash : firstClash? [] candidates with
    | some later => .error (.stemTaken later.pattern later.stem)
    | none => .ok ⟨candidates, (nodup_of_firstClash?_eq_none clash).1⟩

def find? (aliases : Aliases) (specifier : Text) : Option Alias :=
  aliases.toList.find? fun candidate => candidate.covers specifier

end Aliases

end PathAlias
