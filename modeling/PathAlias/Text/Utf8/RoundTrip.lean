import PathAlias.Text.Utf8

/-!
Contract: what the UTF-8 reader makes of the bytes that the encoding writes.

Owns:
- the reader's steps inside a character, and the encoding of a character by its
  number of bytes;
- the round trip from text to bytes, for the strict and the lenient reading;
- the converse: bytes that the strict reading accepts encode the text it gives.

Does not own: what the lenient reading makes of malformed bytes.
-/

set_option autoImplicit false

namespace PathAlias.Utf8

/-! ## Steps of the reader -/

theorem toNat_ofNat_of_lt (value : Nat) (small : value < 256) :
    (UInt8.ofNat value).toNat = value := by
  rw [UInt8.toNat_ofNat']
  omega

theorem ofNat_toNat_sub_add {byte : UInt8} {offset : Nat} (large : offset ≤ byte.toNat) :
    UInt8.ofNat (byte.toNat - offset + offset) = byte := by
  rw [Nat.sub_add_cancel large, UInt8.ofNat_toNat]

theorem toNat_ofNat_of_valid {value : Nat}
    (valid : value < 0xD800 ∨ (0xDFFF < value ∧ value < 0x110000)) :
    (Char.ofNat value).val.toNat = value := by
  have isValid : value.isValidChar := valid
  rw [Char.ofNat, dif_pos isValid]
  exact UInt32.toNat_ofNatLT

theorem piecesFrom_last {lowest highest scalar : Nat} {byte : UInt8} {rest : List UInt8}
    (above : lowest ≤ byte.toNat) (below : byte.toNat ≤ highest) :
    piecesFrom (.inside 0 lowest highest scalar) (byte :: rest)
      = some (Char.ofNat (scalar * 64 + (byte.toNat - 0x80))) :: piecesFrom .boundary rest := by
  simp only [piecesFrom, State.step]
  rw [if_pos ⟨above, below⟩]
  rfl

theorem piecesFrom_further {further lowest highest scalar : Nat} {byte : UInt8}
    {rest : List UInt8} (above : lowest ≤ byte.toNat) (below : byte.toNat ≤ highest) :
    piecesFrom (.inside (further + 1) lowest highest scalar) (byte :: rest)
      = piecesFrom (.inside further 0x80 0xBF (scalar * 64 + (byte.toNat - 0x80))) rest := by
  simp only [piecesFrom, State.step]
  rw [if_pos ⟨above, below⟩]
  rfl

theorem none_mem_piecesFrom_nil {further lowest highest scalar : Nat} :
    none ∈ piecesFrom (.inside further lowest highest scalar) [] := by
  simp [piecesFrom, State.finish]

theorem none_mem_piecesFrom_of_outside {further lowest highest scalar : Nat} {byte : UInt8}
    {rest : List UInt8} (outside : ¬ (lowest ≤ byte.toNat ∧ byte.toNat ≤ highest)) :
    none ∈ piecesFrom (.inside further lowest highest scalar) (byte :: rest) := by
  simp only [piecesFrom, State.step]
  rw [if_neg outside]
  simp

/-- The next byte of a well-formed text inside a character is in range. -/
theorem exists_cons_of_inside {further lowest highest scalar : Nat} {bytes : List UInt8}
    (wellFormed : none ∉ piecesFrom (.inside further lowest highest scalar) bytes) :
    ∃ byte rest, bytes = byte :: rest ∧ lowest ≤ byte.toNat ∧ byte.toNat ≤ highest := by
  cases bytes with
  | nil => exact absurd none_mem_piecesFrom_nil wellFormed
  | cons byte rest =>
      by_cases within : lowest ≤ byte.toNat ∧ byte.toNat ≤ highest
      · exact ⟨byte, rest, rfl, within.1, within.2⟩
      · exact absurd (none_mem_piecesFrom_of_outside within) wellFormed

theorem piecesFrom_boundary_cons (byte : UInt8) (rest : List UInt8) :
    piecesFrom .boundary (byte :: rest)
      = (State.begin byte.toNat).1 ++ piecesFrom (State.begin byte.toNat).2 rest := rfl

/-! ## Encoding one character -/

theorem encodeChar_one {value : Nat} (valid : value ≤ 0x7F) :
    String.utf8EncodeChar (Char.ofNat value) = [UInt8.ofNat value] := by
  unfold String.utf8EncodeChar
  rw [toNat_ofNat_of_valid (by omega)]
  simp only []
  rw [if_pos (by omega)]

theorem encodeChar_two {value : Nat} (above : 0x7F < value) (below : value ≤ 0x7FF) :
    String.utf8EncodeChar (Char.ofNat value)
      = [UInt8.ofNat (value / 64 + 0xC0), UInt8.ofNat (value % 64 + 0x80)] := by
  unfold String.utf8EncodeChar
  rw [toNat_ofNat_of_valid (by omega)]
  simp only []
  rw [if_neg (by omega), if_pos (by omega), Nat.mod_eq_of_lt (a := value / 64) (by omega)]

theorem encodeChar_three {value : Nat} (above : 0x7FF < value) (below : value ≤ 0xFFFF)
    (valid : value < 0xD800 ∨ 0xDFFF < value) :
    String.utf8EncodeChar (Char.ofNat value)
      = [UInt8.ofNat (value / 4096 + 0xE0), UInt8.ofNat (value / 64 % 64 + 0x80),
          UInt8.ofNat (value % 64 + 0x80)] := by
  unfold String.utf8EncodeChar
  rw [toNat_ofNat_of_valid (by omega)]
  simp only []
  rw [if_neg (by omega), if_neg (by omega), if_pos (by omega),
    Nat.mod_eq_of_lt (a := value / 4096) (by omega)]

theorem encodeChar_four {value : Nat} (above : 0xFFFF < value) (below : value < 0x110000) :
    String.utf8EncodeChar (Char.ofNat value)
      = [UInt8.ofNat (value / 262144 + 0xF0), UInt8.ofNat (value / 4096 % 64 + 0x80),
          UInt8.ofNat (value / 64 % 64 + 0x80), UInt8.ofNat (value % 64 + 0x80)] := by
  unfold String.utf8EncodeChar
  rw [toNat_ofNat_of_valid (by omega)]
  simp only []
  rw [if_neg (by omega), if_neg (by omega), if_neg (by omega),
    Nat.mod_eq_of_lt (a := value / 262144) (by omega)]

/-! ## Reading back -/

theorem begin_one {byte : Nat} (below : byte ≤ 0x7F) :
    State.begin byte = ([some (Char.ofNat byte)], .boundary) := by
  rw [State.begin, if_pos below]

theorem begin_two {byte : Nat} (above : 0xC2 ≤ byte) (below : byte ≤ 0xDF) :
    State.begin byte = ([], .inside 0 0x80 0xBF (byte - 0xC0)) := by
  rw [State.begin, if_neg (by omega), if_pos ⟨above, below⟩]

theorem begin_three {byte : Nat} (above : 0xE0 ≤ byte) (below : byte ≤ 0xEF) :
    State.begin byte
      = ([], .inside 1 (if byte = 0xE0 then 0xA0 else 0x80)
          (if byte = 0xED then 0x9F else 0xBF) (byte - 0xE0)) := by
  rw [State.begin, if_neg (by omega), if_neg (by omega), if_pos ⟨above, below⟩]

theorem begin_four {byte : Nat} (above : 0xF0 ≤ byte) (below : byte ≤ 0xF4) :
    State.begin byte
      = ([], .inside 2 (if byte = 0xF0 then 0x90 else 0x80)
          (if byte = 0xF4 then 0x8F else 0xBF) (byte - 0xF0)) := by
  rw [State.begin, if_neg (by omega), if_neg (by omega), if_neg (by omega),
    if_pos ⟨above, below⟩]

/-- Reading the bytes of one character gives that character. -/
theorem pieces_encodeChar (symbol : Char) (rest : List UInt8) :
    piecesFrom .boundary (String.utf8EncodeChar symbol ++ rest)
      = some symbol :: piecesFrom .boundary rest := by
  obtain ⟨value, valid, rfl⟩ : ∃ value,
      (value < 0xD800 ∨ (0xDFFF < value ∧ value < 0x110000)) ∧ Char.ofNat value = symbol :=
    ⟨symbol.val.toNat, symbol.valid, Char.ofNat_toNat symbol⟩
  by_cases one : value ≤ 0x7F
  · rw [encodeChar_one one, List.cons_append, List.nil_append, piecesFrom_boundary_cons,
      toNat_ofNat_of_lt value (by omega), begin_one one]
    rfl
  by_cases two : value ≤ 0x7FF
  · have first := toNat_ofNat_of_lt (value / 64 + 0xC0) (by omega)
    have second := toNat_ofNat_of_lt (value % 64 + 0x80) (by omega)
    rw [encodeChar_two (by omega) two, List.cons_append, List.cons_append, List.nil_append,
      piecesFrom_boundary_cons, first, begin_two (by omega) (by omega), List.nil_append,
      piecesFrom_last (by rw [second]; omega) (by rw [second]; omega), second,
      show (value / 64 + 0xC0 - 0xC0) * 64 + (value % 64 + 0x80 - 0x80) = value by omega]
  by_cases three : value ≤ 0xFFFF
  · have first := toNat_ofNat_of_lt (value / 4096 + 0xE0) (by omega)
    have second := toNat_ofNat_of_lt (value / 64 % 64 + 0x80) (by omega)
    have third := toNat_ofNat_of_lt (value % 64 + 0x80) (by omega)
    rw [encodeChar_three (by omega) three (by omega), List.cons_append, List.cons_append,
      List.cons_append, List.nil_append, piecesFrom_boundary_cons, first,
      begin_three (by omega) (by omega), List.nil_append,
      piecesFrom_further (by rw [second]; split <;> omega) (by rw [second]; split <;> omega),
      second, piecesFrom_last (by rw [third]; omega) (by rw [third]; omega), third,
      show ((value / 4096 + 0xE0 - 0xE0) * 64 + (value / 64 % 64 + 0x80 - 0x80)) * 64
        + (value % 64 + 0x80 - 0x80) = value by omega]
  · have first := toNat_ofNat_of_lt (value / 262144 + 0xF0) (by omega)
    have second := toNat_ofNat_of_lt (value / 4096 % 64 + 0x80) (by omega)
    have third := toNat_ofNat_of_lt (value / 64 % 64 + 0x80) (by omega)
    have fourth := toNat_ofNat_of_lt (value % 64 + 0x80) (by omega)
    rw [encodeChar_four (by omega) (by omega), List.cons_append, List.cons_append,
      List.cons_append, List.cons_append, List.nil_append, piecesFrom_boundary_cons, first,
      begin_four (by omega) (by omega), List.nil_append,
      piecesFrom_further (by rw [second]; split <;> omega) (by rw [second]; split <;> omega),
      second, piecesFrom_further (by rw [third]; omega) (by rw [third]; omega), third,
      piecesFrom_last (by rw [fourth]; omega) (by rw [fourth]; omega), fourth,
      show (((value / 262144 + 0xF0 - 0xF0) * 64 + (value / 4096 % 64 + 0x80 - 0x80)) * 64
        + (value / 64 % 64 + 0x80 - 0x80)) * 64 + (value % 64 + 0x80 - 0x80) = value by omega]

/-- Reading the encoding of a text gives its characters and nothing else. -/
theorem pieces_encode (text : Text) : pieces (encode text) = text.map some := by
  induction text with
  | nil => rfl
  | cons symbol rest inductionHypothesis =>
      rw [encode, List.flatMap_cons, pieces, pieces_encodeChar, List.map_cons]
      exact congrArg _ inductionHypothesis

/-- The lenient reading inverts the encoding. -/
@[simp]
theorem decodeLossy_encode (text : Text) : decodeLossy (encode text) = text := by
  simp [decodeLossy, pieces_encode, Function.comp_def]

/-- The strict reading inverts the encoding. -/
@[simp]
theorem decode?_encode (text : Text) : decode? (encode text) = some text := by
  simp [decode?, decodeLossy_encode, pieces_encode]

/-! ## Well-formed bytes -/

/-- The first character of well-formed bytes, with the bytes that encode it. -/
theorem exists_encodeChar_of_wellFormed {byte : UInt8} {rest : List UInt8}
    (wellFormed : none ∉ piecesFrom .boundary (byte :: rest)) :
    ∃ symbol others, byte :: rest = String.utf8EncodeChar symbol ++ others := by
  rw [piecesFrom_boundary_cons] at wellFormed
  have bound := byte.toNat_lt
  by_cases one : byte.toNat ≤ 0x7F
  · exact ⟨Char.ofNat byte.toNat, rest, by
      rw [encodeChar_one one, UInt8.ofNat_toNat]; rfl⟩
  by_cases two : 0xC2 ≤ byte.toNat ∧ byte.toNat ≤ 0xDF
  · rw [begin_two two.1 two.2, List.nil_append] at wellFormed
    obtain ⟨second, others, rfl, low, high⟩ := exists_cons_of_inside wellFormed
    refine ⟨Char.ofNat ((byte.toNat - 0xC0) * 64 + (second.toNat - 0x80)), others, ?_⟩
    rw [encodeChar_two (by omega) (by omega),
      show ((byte.toNat - 0xC0) * 64 + (second.toNat - 0x80)) / 64 = byte.toNat - 0xC0 by omega,
      show ((byte.toNat - 0xC0) * 64 + (second.toNat - 0x80)) % 64 = second.toNat - 0x80 by omega,
      ofNat_toNat_sub_add (by omega), ofNat_toNat_sub_add (by omega)]
    rfl
  by_cases three : 0xE0 ≤ byte.toNat ∧ byte.toNat ≤ 0xEF
  · rw [begin_three three.1 three.2, List.nil_append] at wellFormed
    obtain ⟨second, others, rfl, low, high⟩ := exists_cons_of_inside wellFormed
    rw [piecesFrom_further low high] at wellFormed
    obtain ⟨third, others, rfl, low', high'⟩ := exists_cons_of_inside wellFormed
    have lowest : 0x80 ≤ second.toNat ∧ (byte.toNat = 0xE0 → 0xA0 ≤ second.toNat) := by
      split at low <;> omega
    have highest : second.toNat ≤ 0xBF ∧ (byte.toNat = 0xED → second.toNat ≤ 0x9F) := by
      split at high <;> omega
    obtain ⟨value, isValue⟩ : ∃ value, value
      = ((byte.toNat - 0xE0) * 64 + (second.toNat - 0x80)) * 64 + (third.toNat - 0x80) := ⟨_, rfl⟩
    refine ⟨Char.ofNat value, others, ?_⟩
    rw [encodeChar_three (by omega) (by omega) (by omega),
      show value / 4096 = byte.toNat - 0xE0 by omega,
      show value / 64 % 64 = second.toNat - 0x80 by omega,
      show value % 64 = third.toNat - 0x80 by omega,
      ofNat_toNat_sub_add (by omega), ofNat_toNat_sub_add (by omega),
      ofNat_toNat_sub_add (by omega)]
    rfl
  by_cases four : 0xF0 ≤ byte.toNat ∧ byte.toNat ≤ 0xF4
  · rw [begin_four four.1 four.2, List.nil_append] at wellFormed
    obtain ⟨second, others, rfl, low, high⟩ := exists_cons_of_inside wellFormed
    rw [piecesFrom_further low high] at wellFormed
    obtain ⟨third, others, rfl, low', high'⟩ := exists_cons_of_inside wellFormed
    rw [piecesFrom_further low' high'] at wellFormed
    obtain ⟨fourth, others, rfl, low'', high''⟩ := exists_cons_of_inside wellFormed
    have lowest : 0x80 ≤ second.toNat ∧ (byte.toNat = 0xF0 → 0x90 ≤ second.toNat) := by
      split at low <;> omega
    have highest : second.toNat ≤ 0xBF ∧ (byte.toNat = 0xF4 → second.toNat ≤ 0x8F) := by
      split at high <;> omega
    obtain ⟨value, isValue⟩ : ∃ value, value
      = (((byte.toNat - 0xF0) * 64 + (second.toNat - 0x80)) * 64 + (third.toNat - 0x80)) * 64
        + (fourth.toNat - 0x80) := ⟨_, rfl⟩
    refine ⟨Char.ofNat value, others, ?_⟩
    rw [encodeChar_four (by omega) (by omega),
      show value / 262144 = byte.toNat - 0xF0 by omega,
      show value / 4096 % 64 = second.toNat - 0x80 by omega,
      show value / 64 % 64 = third.toNat - 0x80 by omega,
      show value % 64 = fourth.toNat - 0x80 by omega,
      ofNat_toNat_sub_add (by omega), ofNat_toNat_sub_add (by omega),
      ofNat_toNat_sub_add (by omega), ofNat_toNat_sub_add (by omega)]
    rfl
  · rw [State.begin, if_neg one, if_neg two, if_neg three, if_neg four] at wellFormed
    simp at wellFormed

/-- Bytes without a malformed stretch encode a text. -/
theorem exists_encode_of_wellFormed (bytes : List UInt8) (wellFormed : none ∉ pieces bytes) :
    ∃ text, bytes = encode text := by
  generalize bound : bytes.length = limit
  induction limit using Nat.strongRecOn generalizing bytes with
  | ind limit inductionHypothesis =>
      cases bytes with
      | nil => exact ⟨[], rfl⟩
      | cons byte rest =>
          obtain ⟨symbol, others, division⟩ := exists_encodeChar_of_wellFormed wellFormed
          have positive : 0 < (String.utf8EncodeChar symbol).length := by
            rw [String.length_utf8EncodeChar]
            exact symbol.utf8Size_pos
          have shorter : others.length < limit := by
            rw [← bound, division, List.length_append]
            omega
          rw [pieces, division, pieces_encodeChar] at wellFormed
          obtain ⟨text, rfl⟩ := inductionHypothesis others.length shorter others
            (fun malformed => wellFormed (List.mem_cons_of_mem _ malformed)) rfl
          exact ⟨symbol :: text, by rw [division]; rfl⟩

/-- The strict reading inverts the encoding, and takes nothing else. -/
theorem decode?_eq_some_iff {bytes : List UInt8} {text : Text} :
    decode? bytes = some text ↔ bytes = encode text := by
  constructor
  · intro decoded
    by_cases malformed : none ∈ pieces bytes
    · simp [decode?, malformed] at decoded
    · obtain ⟨found, rfl⟩ := exists_encode_of_wellFormed bytes malformed
      rw [decode?_encode] at decoded
      rw [Option.some.inj decoded]
  · rintro rfl
    exact decode?_encode text

end PathAlias.Utf8
