import PathAlias.Text.Basic

/-!
Contract: a stretch of a text named by its first byte and the byte after its
last one.

Owns: the type `Span`, the text at a span, and the replacement of a span, which
is told by its parts too.

Does not own: where spans come from.
-/

set_option autoImplicit false

namespace PathAlias

/-- A stretch of a text, in bytes: from `start` up to, but not including,
`finish`.  Nothing forces the two into order. -/
structure Span where
  start : Nat
  finish : Nat
  deriving DecidableEq, Repr

namespace Span

def following (before content : Text) : Span :=
  ⟨Text.byteLength before, Text.byteLength before + Text.byteLength content⟩

/-- What a text holds at a span; nothing when an end of the span is not
between two characters, or when the ends are out of order. -/
def textAt? (span : Span) (text : Text) : Option Text := do
  let (before, _) ← Text.cutAt? span.finish text
  let (_, content) ← Text.cutAt? span.start before
  return content

/-- The text with a span replaced: everything before the start, the
replacement, everything from the finish on.  Both ends must lie between two
characters.  Ends out of order repeat the characters between them. -/
def replace? (span : Span) (replacement text : Text) : Option Text := do
  let (before, _) ← Text.cutAt? span.start text
  let (_, after) ← Text.cutAt? span.finish text
  return before ++ replacement ++ after

/-- The span of a part of a text holds that part. -/
theorem textAt?_following (before content after : Text) :
    (following before content).textAt? (before ++ content ++ after) = some content := by
  have outer : Text.cutAt? (following before content).finish (before ++ content ++ after)
      = some (before ++ content, after) :=
    Text.cutAt?_eq_some_iff.2 ⟨rfl, Text.byteLength_append before content⟩
  have inner : Text.cutAt? (following before content).start (before ++ content)
      = some (before, content) :=
    Text.cutAt?_eq_some_iff.2 ⟨rfl, rfl⟩
  simp only [textAt?, outer, inner, bind, Option.bind, pure]

/-- A text is another one with a span replaced: what stands before the start,
the replacement, and what stands from the finish on. -/
def Splices (span : Span) (replacement text spliced : Text) : Prop :=
  ∃ before rest front after, text = before ++ rest ∧ Text.byteLength before = span.start
    ∧ text = front ++ after ∧ Text.byteLength front = span.finish
    ∧ spliced = before ++ replacement ++ after

theorem replace?_eq_some_iff {span : Span} {replacement text spliced : Text} :
    span.replace? replacement text = some spliced ↔ span.Splices replacement text spliced := by
  simp only [replace?, Option.bind_eq_bind, Option.bind_eq_some_iff, Option.pure_def, Prod.exists,
    Text.cutAt?_eq_some_iff, Option.some.injEq]
  constructor
  · rintro ⟨before, rest, ⟨whole, start⟩, front, after, ⟨same, finish⟩, rfl⟩
    exact ⟨before, rest, front, after, whole, start, same, finish, rfl⟩
  · rintro ⟨before, rest, front, after, whole, start, same, finish, rfl⟩
    exact ⟨before, rest, ⟨whole, start⟩, front, after, ⟨same, finish⟩, rfl⟩

/-- Replacing the span of a part of a text exchanges that part. -/
theorem replace?_following (before content after replacement : Text) :
    (following before content).replace? replacement (before ++ content ++ after)
      = some (before ++ replacement ++ after) :=
  replace?_eq_some_iff.2 ⟨before, content ++ after, before ++ content, after,
    List.append_assoc before content after, rfl, rfl, Text.byteLength_append before content, rfl⟩

end Span

end PathAlias
