import PathAlias.Json.Printer
import PathAlias.Json.Reader
import PathAlias.Proofs.Outcomes
import PathAlias.Proofs.Text.Pieces

/-!
Contract: what the printer writes, the reader reads.

Owns:
- values without numbers, with a bound on their nesting;
- sequences as their pieces joined by commas, and the reading of them piece by
  piece;
- the round trip of such values, in front of any text.

Does not own: quoted text (`PathAlias.Json.Quoted`), or numbers.  A number ends
only where the text after it cannot go on with it; any other value ends by
itself.
-/

set_option autoImplicit false

namespace PathAlias.Json

/-! ## Sequences -/

section

variable {Item : Type} {close : Char} {readItem : Text → Except Fault (Item × Text)}
  {write : Item → Text}

/-- An item that is read as it is written, and told from blanks and from the
end of a sequence by its first character. -/
structure ReadsBack (close : Char) (readItem : Text → Except Fault (Item × Text))
    (write : Item → Text) (item : Item) : Prop where
  opened : ∃ first others, write item = first :: others ∧ isBlank first = false ∧ first ≠ close
  read : ∀ rest, readItem (write item ++ rest) = .ok (item, rest)

theorem skipBlanks_cons {symbol : Char} (visible : isBlank symbol = false) (rest : Text) :
    skipBlanks (symbol :: rest) = symbol :: rest := by
  unfold skipBlanks
  rw [List.dropWhile_cons_of_neg (by simp [visible])]

theorem readItems_join (visible : isBlank close = false) (notComma : close ≠ ',')
    {items : List Item} (nonempty : items ≠ [])
    (each : ∀ item ∈ items, ReadsBack close readItem write item) (rest : Text) {left : Nat}
    (enough : items.length ≤ left) :
    readItems close readItem left (Separated.join ',' (items.map write) ++ close :: rest)
      = .ok (items, rest) := by
  induction items generalizing left with
  | nil => exact absurd rfl nonempty
  | cons item others inductionHypothesis =>
      cases left with
      | zero => exact absurd enough (Nat.not_succ_le_zero _)
      | succ left =>
          have itemRead := (each item List.mem_cons_self).read
          by_cases last : others = []
          · subst last
            rw [List.map_singleton, Separated.join, readItems, itemRead]
            simp only [Outcome.ok_bind, skipBlanks_cons visible, ↓reduceIte, Outcome.pure_eq_ok]
          · have othersRead := inductionHypothesis last
              (fun other member => each other (List.mem_cons_of_mem item member))
              (Nat.le_of_succ_le_succ enough)
            rw [List.map_cons, Separated.join_cons_of_ne_nil ',' _ (by simpa using last),
              List.append_assoc, List.cons_append, readItems, itemRead]
            simp only [Outcome.ok_bind, skipBlanks_cons (show isBlank ',' = false by decide),
              Ne.symm notComma, ↓reduceIte, othersRead, Outcome.pure_eq_ok]

theorem readSequence_join (visible : isBlank close = false) (notComma : close ≠ ',')
    {items : List Item} (each : ∀ item ∈ items, ReadsBack close readItem write item)
    (rest : Text) :
    readSequence close readItem (Separated.join ',' (items.map write) ++ close :: rest)
      = .ok (items, rest) := by
  unfold readSequence
  cases items with
  | nil => simp only [List.map_nil, Separated.join, List.nil_append, skipBlanks_cons visible,
      ↓reduceIte]
  | cons item others =>
      obtain ⟨first, tail, written, firstVisible, notClose⟩ := (each item List.mem_cons_self).opened
      have nonempty : ∀ piece ∈ (item :: others).map write, piece ≠ [] := by
        intro piece member
        obtain ⟨other, present, rfl⟩ := List.mem_map.1 member
        obtain ⟨first, tail, written, -⟩ := (each other present).opened
        simp [written]
      -- the characters of the text bound the items, as every item takes one
      have enough : (item :: others).length
          ≤ (Separated.join ',' ((item :: others).map write) ++ close :: rest).length := by
        have counted := Separated.length_le_length_join ',' nonempty
        rw [List.length_map] at counted
        rw [List.length_append]
        omega
      have read := readItems_join visible notComma (List.cons_ne_nil item others) each rest enough
      obtain ⟨joinedTail, joined, -⟩ := Separated.exists_join_cons ',' (write item) (others.map write)
      rw [List.map_cons, joined, written, List.cons_append, List.cons_append] at read ⊢
      simp only [skipBlanks_cons firstVisible, notClose, ↓reduceIte]
      exact read

end

/-! ## Values without numbers -/

/-- A value without numbers in which at most so many arrays and objects lie
inside each other. -/
inductive Nests : Nat → Json → Prop where
  | null {depth : Nat} : Nests depth .null
  | boolean {depth : Nat} (value : Bool) : Nests depth (.boolean value)
  | string {depth : Nat} (text : Text) : Nests depth (.string text)
  | array {depth : Nat} {items : List Json} (each : ∀ item ∈ items, Nests depth item) :
      Nests (depth + 1) (.array items)
  | object {depth : Nat} {members : List (Text × Json)}
      (each : ∀ member ∈ members, Nests depth member.2) : Nests (depth + 1) (.object members)

def renderMember (member : Text × Json) : Text :=
  Quoted.write member.1 ++ ':' :: render member.2

theorem renderItems_eq_join (items : List Json) :
    renderItems items = Separated.join ',' (items.map render) ++ [']'] := by
  induction items with
  | nil => rfl
  | cons item others inductionHypothesis =>
      cases others with
      | nil => rfl
      | cons other others =>
          have printed : renderItems (item :: other :: others)
              = render item ++ ',' :: renderItems (other :: others) := rfl
          have joined : Separated.join ',' ((item :: other :: others).map render)
              = render item ++ ',' :: Separated.join ',' ((other :: others).map render) := rfl
          rw [printed, joined, inductionHypothesis, List.append_assoc, List.cons_append]

theorem renderMembers_eq_join (members : List (Text × Json)) :
    renderMembers members = Separated.join ',' (members.map renderMember) ++ ['\x7d'] := by
  induction members with
  | nil => rfl
  | cons member others inductionHypothesis =>
      cases others with
      | nil => rfl
      | cons other others =>
          have printed : renderMembers (member :: other :: others)
              = renderMember member ++ ',' :: renderMembers (other :: others) := by
            simp [renderMembers, renderMember]
          have joined : Separated.join ',' ((member :: other :: others).map renderMember)
              = renderMember member
                ++ ',' :: Separated.join ',' ((other :: others).map renderMember) := rfl
          rw [printed, joined, inductionHypothesis, List.append_assoc, List.cons_append]

theorem exists_render_eq_cons {depth : Nat} {value : Json} (nests : Nests depth value) :
    ∃ first others, render value = first :: others ∧ isBlank first = false ∧ first ≠ ']' := by
  cases nests with
  | null => exact ⟨'n', "ull".toList, by rfl, by decide, by decide⟩
  | boolean value =>
      cases value with
      | true => exact ⟨'t', "rue".toList, by rfl, by decide, by decide⟩
      | false => exact ⟨'f', "alse".toList, by rfl, by decide, by decide⟩
  | string text => exact ⟨'"', _, rfl, by decide, by decide⟩
  | array each => exact ⟨'[', _, rfl, by decide, by decide⟩
  | object each => exact ⟨'\x7b', _, rfl, by decide, by decide⟩

theorem readMember_renderMember {readValue : Text → Except Fault (Json × Text)}
    {member : Text × Json}
    (valueRead : ∀ rest, readValue (render member.2 ++ rest) = .ok (member.2, rest))
    (rest : Text) : readMember readValue (renderMember member ++ rest) = .ok (member, rest) := by
  have opened : renderMember member ++ rest
      = '"' :: (member.1.flatMap Quoted.escape ++ '"' :: ':' :: (render member.2 ++ rest)) := by
    simp [renderMember, Quoted.write]
  unfold readMember
  rw [opened]
  simp only [skipBlanks_cons (show isBlank '"' = false by decide),
    skipBlanks_cons (show isBlank ':' = false by decide), ↓reduceIte, Outcome.ok_bind,
    Quoted.read_write, valueRead, Outcome.pure_eq_ok]

/-! ## The round trip -/

theorem exists_readValue_eq (depth : Nat) : ∃ nested, readValue depth = readValueWith nested := by
  cases depth with
  | zero => exact ⟨_, rfl⟩
  | succ depth => exact ⟨_, rfl⟩

/-- A value without numbers is read as it was printed, whatever follows. -/
theorem readValue_render {depth : Nat} {value : Json} (nests : Nests depth value) (rest : Text) :
    readValue depth (render value ++ rest) = .ok (value, rest) := by
  induction nests generalizing rest with
  | @null depth =>
      obtain ⟨nested, isNested⟩ := exists_readValue_eq depth
      rw [isNested]
      rfl
  | @boolean depth value =>
      obtain ⟨nested, isNested⟩ := exists_readValue_eq depth
      rw [isNested]
      cases value <;> rfl
  | @string depth text =>
      obtain ⟨nested, isNested⟩ := exists_readValue_eq depth
      have opened : render (.string text) ++ rest
          = '"' :: (text.flatMap Quoted.escape ++ '"' :: rest) := by
        simp [render, Quoted.write]
      rw [isNested, opened, readValueWith]
      simp only [skipBlanks_cons (show isBlank '"' = false by decide), Char.reduceEq, ↓reduceIte,
        Quoted.read_write, Outcome.ok_bind, Outcome.pure_eq_ok]
  | @array depth items each inductionHypothesis =>
      have eachRead : ∀ item ∈ items, ReadsBack ']' (readValue depth) render item :=
        fun item member => ⟨exists_render_eq_cons (each item member),
          inductionHypothesis item member⟩
      have read := readSequence_join (by decide) (by decide) eachRead rest
      have opened : render (.array items) ++ rest
          = '[' :: (Separated.join ',' (items.map render) ++ ']' :: rest) := by
        simp [render, renderItems_eq_join]
      have noDigit : Number.isDigit '[' = false := by decide
      rw [opened, readValue, readValueWith]
      simp only [skipBlanks_cons (show isBlank '[' = false by decide), Char.reduceEq, noDigit,
        Bool.false_eq_true, or_self, ↓reduceIte, read, Outcome.ok_bind, Outcome.pure_eq_ok]
  | @object depth members each inductionHypothesis =>
      have eachRead : ∀ member ∈ members,
          ReadsBack '\x7d' (readMember (readValue depth)) renderMember member :=
        fun member present => ⟨⟨'"', _, rfl, by decide, by decide⟩,
          readMember_renderMember (inductionHypothesis member present)⟩
      have read := readSequence_join (by decide) (by decide) eachRead rest
      have opened : render (.object members) ++ rest
          = '\x7b' :: (Separated.join ',' (members.map renderMember) ++ '\x7d' :: rest) := by
        simp [render, renderMembers_eq_join]
      have noDigit : Number.isDigit '\x7b' = false := by decide
      rw [opened, readValue, readValueWith]
      simp only [skipBlanks_cons (show isBlank '\x7b' = false by decide), Char.reduceEq, noDigit,
        Bool.false_eq_true, or_self, ↓reduceIte, read, Outcome.ok_bind, Outcome.pure_eq_ok]

theorem readFront_render {value : Json} (nests : Nests depthLimit value) :
    readFront (render value) = .ok (value, []) := by
  have read := readValue_render nests []
  rwa [List.append_nil] at read

theorem readDocument_render {value : Json} (nests : Nests depthLimit value) :
    readDocument (render value) = .ok value := by
  unfold readDocument
  rw [readFront_render nests]
  rfl

end PathAlias.Json
