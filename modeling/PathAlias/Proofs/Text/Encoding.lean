import PathAlias.Proofs.Text.Pieces
import PathAlias.Text.Utf8.RoundTrip

/-!
Contract: encoded text between the occurrences of an ASCII character.

Owns:
- which encoded characters hold a byte below 128: the ASCII character of that
  byte, and no other;
- the laws that splitting at an ASCII character, or joining with one, can be
  exchanged with encoding.

Does not own: which ASCII characters separate what.
-/

set_option autoImplicit false

namespace PathAlias.Utf8

/-- Only an ASCII character is written with a byte below 128, and it is written
with that byte alone. -/
theorem encodeChar_of_mem_ascii {symbol : Char} {byte : UInt8}
    (member : byte ∈ String.utf8EncodeChar symbol) (ascii : byte.toNat ≤ 0x7F) :
    symbol = Char.ofNat byte.toNat ∧ String.utf8EncodeChar symbol = [byte] := by
  obtain ⟨value, valid, rfl⟩ : ∃ value,
      (value < 0xD800 ∨ (0xDFFF < value ∧ value < 0x110000)) ∧ Char.ofNat value = symbol :=
    ⟨symbol.val.toNat, symbol.valid, Char.ofNat_toNat symbol⟩
  by_cases one : value ≤ 0x7F
  · rw [encodeChar_one one, List.mem_singleton] at member
    subst member
    rw [toNat_ofNat_of_lt value (by omega)]
    exact ⟨rfl, encodeChar_one one⟩
  -- every byte of a longer form is at least 128
  exfalso
  by_cases two : value ≤ 0x7FF
  · rw [encodeChar_two (by omega) two] at member
    simp only [List.mem_cons, List.not_mem_nil, or_false] at member
    rcases member with rfl | rfl <;> rw [toNat_ofNat_of_lt _ (by omega)] at ascii <;> omega
  by_cases three : value ≤ 0xFFFF
  · rw [encodeChar_three (by omega) three (by omega)] at member
    simp only [List.mem_cons, List.not_mem_nil, or_false] at member
    rcases member with rfl | rfl | rfl <;> rw [toNat_ofNat_of_lt _ (by omega)] at ascii <;> omega
  · rw [encodeChar_four (by omega) (by omega)] at member
    simp only [List.mem_cons, List.not_mem_nil, or_false] at member
    rcases member with rfl | rfl | rfl | rfl <;>
      rw [toNat_ofNat_of_lt _ (by omega)] at ascii <;> omega

theorem encode_cons (symbol : Char) (rest : Text) :
    encode (symbol :: rest) = String.utf8EncodeChar symbol ++ encode rest := rfl

theorem encode_injective {left right : Text} (same : encode left = encode right) :
    left = right := by
  rw [← decodeLossy_encode left, same, decodeLossy_encode]

theorem encode_eq_nil_iff {text : Text} : encode text = [] ↔ text = [] := by
  constructor
  · intro empty
    exact encode_injective empty
  · rintro rfl
    rfl

/-- Bytes that show no replacement character are the encoding of what they
show. -/
theorem eq_encode_of_decodeLossy {bytes : List UInt8} {text : Text}
    (shown : decodeLossy bytes = text) (unreplaced : replacementChar ∉ text) :
    bytes = encode text := by
  apply decode?_eq_some_iff.1
  have wellFormed : none ∉ pieces bytes := by
    intro malformed
    apply unreplaced
    rw [← shown]
    exact List.mem_map.2 ⟨none, malformed, rfl⟩
  unfold decode?
  rw [if_neg wellFormed, shown]

/-- The pieces of encoded text between the bytes of an ASCII character are the
encoded pieces of the text. -/
theorem split_encode (separator : Char) {byte : UInt8}
    (written : String.utf8EncodeChar separator = [byte]) (ascii : byte.toNat ≤ 0x7F)
    (text : Text) :
    Separated.split byte (encode text) = (Separated.split separator text).map encode := by
  have isSeparator : separator = Char.ofNat byte.toNat :=
    (encodeChar_of_mem_ascii (by rw [written]; simp) ascii).1
  induction text with
  | nil => rfl
  | cons symbol rest inductionHypothesis =>
      rw [encode_cons]
      by_cases same : symbol = separator
      · rw [same, written, List.singleton_append]
        simp only [Separated.split, ↓reduceIte, List.map_cons]
        rw [inductionHypothesis]
        rfl
      · have absent : byte ∉ String.utf8EncodeChar symbol := fun member =>
          same ((encodeChar_of_mem_ascii member ascii).1.trans isSeparator.symm)
        rw [Separated.split_append_of_not_mem absent, inductionHypothesis]
        simp only [Separated.split]
        rw [if_neg same]
        cases Separated.split separator rest with
        | nil => rfl
        | cons first others => rfl

/-- Text joined from pieces is encoded piece by piece. -/
theorem encode_join (separator : Char) {byte : UInt8}
    (written : String.utf8EncodeChar separator = [byte]) (pieces : List Text) :
    encode (Separated.join separator pieces) = Separated.join byte (pieces.map encode) := by
  induction pieces with
  | nil => rfl
  | cons piece others inductionHypothesis =>
      by_cases last : others = []
      · subst last
        rfl
      · have moreBytes : others.map encode ≠ [] := by simpa using last
        rw [Separated.join_cons_of_ne_nil separator piece last, List.map_cons,
          Separated.join_cons_of_ne_nil byte _ moreBytes, ← inductionHypothesis]
        unfold encode
        rw [List.flatMap_append, List.flatMap_cons, written, List.singleton_append]

end PathAlias.Utf8
