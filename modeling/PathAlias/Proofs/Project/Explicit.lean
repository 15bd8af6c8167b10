import PathAlias.Proofs.Project.Places

/-!
Contract: which resolved specifiers are explicitly relative.

Owns:
- explicit specifiers, which no module resolver takes for a package;
- the names that a route shows with a dot in front, though it does not become
  explicit by that;
- the main statement: a resolved specifier is explicit unless its destination
  lies below the directory of the file by such a name.

Does not own: whether the destination exists.

The mark in front of a route depends on its first character alone.  A route
that goes up begins with a parent step and is explicit without a mark.  One that
only goes down begins with a name, and a leading dot of that name passes for a
step.
-/

set_option autoImplicit false

namespace PathAlias

/-- A specifier that no module resolver takes for the name of a package. -/
def IsExplicit (specifier : Text) : Prop :=
  ['.', '/'] <+: specifier ∨ ['.', '.', '/'] <+: specifier ∨ specifier = ['.', '.']

instance (specifier : Text) : Decidable (IsExplicit specifier) :=
  inferInstanceAs (Decidable (_ ∨ _ ∨ _))

namespace Path

/-- The text of a name in a route, where a backslash shows as a slash. -/
def shownName (bytes : List UInt8) : Text := Text.replaceChar '\\' '/' (Utf8.decodeLossy bytes)

/-- A name whose leading dot is no step of its own. -/
def IsHidden (bytes : List UInt8) : Prop :=
  (shownName bytes).head? = some '.' ∧ ¬ IsExplicit (shownName bytes)

/-- A path lies below a directory, and the first name on the way is hidden. -/
def LiesHidden (directory path : Path) : Prop :=
  ∃ hidden deeper, IsHidden hidden
    ∧ path.components = directory.components ++ .name hidden :: deeper

end Path

/-! ## Names in a route -/

namespace Path

theorem shownName_ne {bytes : List UInt8} {text : Text} (different : bytes ≠ Utf8.encode text)
    (slashFree : '/' ∉ text) (unreplaced : Utf8.replacementChar ∉ text) :
    shownName bytes ≠ text := by
  intro shown
  apply different
  apply Utf8.eq_encode_of_decodeLossy _ unreplaced
  exact Text.eq_of_replaceChar shown slashFree

theorem shownName_ne_step {bytes : List UInt8} (isName : IsName bytes) :
    shownName bytes ≠ ['.'] ∧ shownName bytes ≠ ['.', '.'] := by
  constructor
  · exact shownName_ne isName.notCurrent (by decide) (by decide)
  · exact shownName_ne isName.notParent (by decide) (by decide)

theorem liesHidden_ofNames_iff {origin destination : List (List UInt8)}
    (originProper : ∀ bytes ∈ origin, IsName bytes)
    (destinationProper : ∀ bytes ∈ destination, IsName bytes) :
    LiesHidden (ofNames origin) (ofNames destination)
      ↔ ∃ hidden deeper, IsHidden hidden ∧ destination = origin ++ hidden :: deeper := by
  unfold LiesHidden
  rw [components_ofNames originProper, components_ofNames destinationProper]
  constructor
  · intro lies
    obtain ⟨hidden, deeper, isHidden, same⟩ := lies
    rw [List.cons_append] at same
    obtain ⟨front, back, rfl, isOrigin, isBack⟩ := List.map_eq_append_iff.1 (List.cons.inj same).2
    obtain ⟨_, rest, rfl, isFirst, -⟩ := List.map_eq_cons_iff.1 isBack
    cases isFirst
    refine ⟨hidden, rest, isHidden, ?_⟩
    congr 1
    exact map_name_injective isOrigin
  · intro lies
    obtain ⟨hidden, deeper, isHidden, rfl⟩ := lies
    refine ⟨hidden, deeper.map .name, isHidden, ?_⟩
    rw [List.map_append, List.map_cons, List.cons_append]

end Path

/-! ## Marked routes -/

namespace Project

theorem isExplicit_markRoute_of_head?_ne {route : Text} (dotless : route.head? ≠ some '.') :
    IsExplicit (markRoute route) := by
  unfold markRoute
  rw [if_neg dotless]
  exact Or.inl ⟨route, rfl⟩

theorem isExplicit_markRoute_up (others : List Text) :
    IsExplicit (markRoute (Separated.join '/' (['.', '.'] :: others))) := by
  obtain ⟨tail, joined, isTail⟩ := Separated.exists_join_cons '/' ['.', '.'] others
  rw [joined]
  unfold markRoute
  rw [if_pos (by rfl)]
  rcases isTail with rfl | ⟨rest, rfl⟩
  · exact Or.inr (Or.inr rfl)
  · exact Or.inr (Or.inl ⟨rest, rfl⟩)

-- Of `.` and `..` alone, what follows decides whether they are explicit.
theorem isExplicit_append_iff {shown tail : Text} (dotted : shown.head? = some '.')
    (notCurrent : shown ≠ ['.']) (notParent : shown ≠ ['.', '.']) :
    IsExplicit (shown ++ tail) ↔ IsExplicit shown := by
  obtain ⟨rest, rfl⟩ := List.head?_eq_some_iff.1 dotted
  match rest with
  | [] => exact absurd rfl notCurrent
  | [second] =>
      have different : '.' ≠ second := by
        rintro rfl
        exact notParent rfl
      simp [IsExplicit, different, different.symm]
  | second :: third :: further => simp [IsExplicit]

theorem isExplicit_markRoute_down {bytes : List UInt8} (isName : Path.IsName bytes)
    (others : List Text) :
    IsExplicit (markRoute (Separated.join '/' (Path.shownName bytes :: others)))
      ↔ ¬ Path.IsHidden bytes := by
  obtain ⟨tail, joined, isTail⟩ :=
    Separated.exists_join_cons '/' (Path.shownName bytes) others
  rw [joined]
  unfold Path.IsHidden
  by_cases dotted : (Path.shownName bytes).head? = some '.'
  · obtain ⟨notCurrent, notParent⟩ := Path.shownName_ne_step isName
    have whole : (Path.shownName bytes ++ tail).head? = some '.' := by
      rw [List.head?_append, dotted]
      rfl
    unfold markRoute
    rw [if_pos whole, isExplicit_append_iff dotted notCurrent notParent]
    simp [dotted]
  · have dotless : (Path.shownName bytes ++ tail).head? ≠ some '.' := by
      rw [List.head?_append]
      cases begins : (Path.shownName bytes).head? with
      | none => rcases isTail with rfl | ⟨rest, rfl⟩ <;> simp
      | some symbol =>
          rw [begins] at dotted
          exact dotted
    simp [isExplicit_markRoute_of_head?_ne dotless, dotted]

/-- A specifier from one place to another is explicit unless the second lies
below the first by a hidden name. -/
theorem isExplicit_markRoute_routeSteps (origin : List (List UInt8))
    {destination : List (List UInt8)} (proper : ∀ bytes ∈ destination, Path.IsName bytes) :
    IsExplicit (markRoute (Text.replaceChar '\\' '/' (Separated.join '/'
        ((Path.routeSteps origin destination).map Path.Component.displayText))))
      ↔ ¬ ∃ hidden deeper, Path.IsHidden hidden ∧ destination = origin ++ hidden :: deeper := by
  -- the slash between the steps is no backslash, so that each step shows by itself
  unfold Text.replaceChar
  rw [Separated.map_join, if_neg (by decide)]
  rcases Path.routeSteps_cases origin destination with ⟨apart, others, up⟩ | ⟨below, rfl, down⟩
  · rw [up]
    apply iff_of_true (isExplicit_markRoute_up _)
    rintro ⟨hidden, deeper, -, rfl⟩
    exact apart (List.prefix_append origin _)
  · rw [down]
    cases below with
    | nil =>
        apply iff_of_true (isExplicit_markRoute_of_head?_ne (by simp [Separated.join]))
        simp
    | cons first deeper =>
        have isName : Path.IsName first := proper first (by simp)
        refine (isExplicit_markRoute_down isName _).trans (not_congr ?_)
        constructor
        · intro isHidden
          exact ⟨first, deeper, isHidden, rfl⟩
        · rintro ⟨hidden, deeper', isHidden, same⟩
          rw [List.append_cancel_left_eq] at same
          rw [(List.cons.inj same).1]
          exact isHidden

/-- **A resolved specifier is explicit unless its destination lies hidden**,
below the directory of the file and with a hidden name first on the way. -/
theorem isExplicit_resolved_iff {project : Project}
    (absolute : project.workingDirectory.isAbsolute = true) (importer : Path)
    {specifier replacement : Text}
    (resolved : project.resolve? importer specifier = some replacement) :
    ∃ substituted, project.mapping.substitute? specifier = some substituted
      ∧ (IsExplicit replacement
        ↔ ¬ Path.LiesHidden (project.directoryOf importer) (project.destination substituted)) := by
  obtain ⟨substituted, isSubstituted, rfl⟩ := Option.map_eq_some_iff.1 resolved
  refine ⟨substituted, isSubstituted, ?_⟩
  rw [specifierTo_destination absolute, directoryOf_eq_ofNames absolute,
    destination_eq_ofNames absolute,
    Path.liesHidden_ofNames_iff (isName_of_mem_directoryNames project importer)
      (isName_of_mem_destinationNames project substituted)]
  exact isExplicit_markRoute_routeSteps _ (isName_of_mem_destinationNames project substituted)

def sourcesConfiguration : Configuration :=
  .flat (PathOptions.empty.addAlias "@/*".toList ["src/*".toList])

def sourcesProject : Project where
  mapping :=
    ⟨"./".toList, ⟨[Alias.ofTargets "@/*".toList (some ["src/*".toList])], by decide +kernel⟩⟩
  workingDirectory := Path.ofText "/w".toList

theorem isExplicit_resolved_iff_sources :
    sourcesProject.workingDirectory.isAbsolute = true
      ∧ sourcesProject.resolve? (Path.ofText "src/pages/home.ts".toList) "@/.env".toList
        = some "../.env".toList
      ∧ IsExplicit "../.env".toList
      ∧ ¬ Path.LiesHidden
          (sourcesProject.directoryOf (Path.ofText "src/pages/home.ts".toList))
          (sourcesProject.destination "src/.env".toList) := by
  have absolute : sourcesProject.workingDirectory.isAbsolute = true := by decide +kernel
  have resolved : sourcesProject.resolve? (Path.ofText "src/pages/home.ts".toList)
      "@/.env".toList = some "../.env".toList := by decide +kernel
  have explicit : IsExplicit "../.env".toList := by decide +kernel
  have isTarget : sourcesProject.mapping.substitute? "@/.env".toList
      = some "src/.env".toList := by decide +kernel
  obtain ⟨substituted, isSubstituted, exactly⟩ := isExplicit_resolved_iff absolute _ resolved
  rw [Option.some.inj (isSubstituted.symm.trans isTarget)] at exactly
  exact ⟨absolute, resolved, explicit, exactly.1 explicit⟩

/-- A hidden file beside the file that refers to it is referred to by its bare
name. -/
theorem not_isExplicit_hiddenFile :
    Project.ofConfiguration (some sourcesConfiguration) (Path.ofText "/w".toList)
        = .ok sourcesProject
      ∧ sourcesProject.workingDirectory.isAbsolute = true
      ∧ sourcesProject.resolve? (Path.ofText "src/a.ts".toList) "@/.env".toList
        = some ".env".toList
      ∧ ¬ IsExplicit ".env".toList := by
  refine ⟨by rfl, ?_, ?_, ?_⟩ <;> decide +kernel

end Project

end PathAlias
