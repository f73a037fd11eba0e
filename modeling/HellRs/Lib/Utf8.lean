import Mathlib

/-! # UTF-8

Decoding of bytes, where a sequence that is not well formed ends before the first byte that does not fit.
-/

namespace HellRs.Utf8

/-- What the first byte of a sequence says: its bits of the character, how many bytes follow, and the bounds on the next one. -/
structure Lead where
  bits : ℕ
  more : ℕ
  low : ℕ
  high : ℕ

def lead (byte : ℕ) : Option Lead :=
  if byte < 0x80 then some ⟨byte, 0, 0x80, 0xBF⟩
  else if byte < 0xC2 then none
  else if byte < 0xE0 then some ⟨byte - 0xC0, 1, 0x80, 0xBF⟩
  else if byte < 0xF0 then some ⟨byte - 0xE0, 2, if byte = 0xE0 then 0xA0 else 0x80, if byte = 0xED then 0x9F else 0xBF⟩
  else if byte < 0xF5 then some ⟨byte - 0xF0, 3, if byte = 0xF0 then 0x90 else 0x80, if byte = 0xF4 then 0x8F else 0xBF⟩
  else none

/-- The bytes behind the first. Without a character, the bytes that are left begin with the one that does not fit. -/
def continuation (bits : ℕ) : (more low high : ℕ) → List UInt8 → Option Char × List UInt8
  | 0, _, _, bytes => (some (Char.ofNat bits), bytes)
  | _ + 1, _, _, [] => (none, [])
  | more + 1, low, high, byte :: bytes =>
    if low ≤ byte.toNat ∧ byte.toNat ≤ high then continuation (64 * bits + (byte.toNat - 0x80)) more 0x80 0xBF bytes
    else (none, byte :: bytes)

/-- The first character, if it is well formed, and the bytes behind it. -/
def decodeFirst (first : UInt8) (bytes : List UInt8) : Option Char × List UInt8 :=
  match lead first.toNat with
  | none => (none, bytes)
  | some lead => continuation lead.bits lead.more lead.low lead.high bytes

theorem continuation_length (bits more low high : ℕ) (bytes : List UInt8) :
    (continuation bits more low high bytes).2.length ≤ bytes.length := by
  induction more generalizing bits low high bytes with
  | zero => exact Nat.le_refl _
  | succ more ih =>
    cases bytes with
    | nil => exact Nat.le_refl _
    | cons byte bytes =>
      rw [continuation]
      split
      · exact Nat.le_succ_of_le (ih ..)
      · exact Nat.le_refl _

theorem decodeFirst_length (first : UInt8) (bytes : List UInt8) : (decodeFirst first bytes).2.length ≤ bytes.length := by
  rw [decodeFirst]
  split
  · exact Nat.le_refl _
  · exact continuation_length ..

/-- `String::from_utf8_lossy`. -/
def fromUtf8Lossy : List UInt8 → List Char
  | [] => []
  | first :: bytes => (decodeFirst first bytes).1.getD '\uFFFD' :: fromUtf8Lossy (decodeFirst first bytes).2
termination_by bytes => bytes.length
decreasing_by exact Nat.lt_succ_of_le (decodeFirst_length ..)

def encode (characters : List Char) : List UInt8 := characters.flatMap String.utf8EncodeChar

section Encoding

theorem toNat_ofNat {value : ℕ} (small : value < 256) : (UInt8.ofNat value).toNat = value := by
  rw [UInt8.toNat_ofNat']
  exact Nat.mod_eq_of_lt small

theorem continuation_fits {bits more low high value : ℕ} (bytes : List UInt8) (small : value < 64)
    (fits : low ≤ value + 0x80 ∧ value + 0x80 ≤ high) :
    continuation bits (more + 1) low high (UInt8.ofNat (value + 0x80) :: bytes) =
      continuation (64 * bits + value) more 0x80 0xBF bytes := by
  have same : (UInt8.ofNat (value + 0x80)).toNat = value + 0x80 := toNat_ofNat (by omega)
  rw [continuation, same, if_pos fits, Nat.add_sub_cancel]

/-- A character is read back. -/
theorem decodeFirst_encode (character : Char) (rest : List UInt8) : ∃ first bytes,
    String.utf8EncodeChar character = first :: bytes ∧ decodeFirst first (bytes ++ rest) = (some character, rest) := by
  have valid : character.val.toNat < 0xD800 ∨ 0xDFFF < character.val.toNat ∧ character.val.toNat < 0x110000 := character.valid
  have back : Char.ofNat character.val.toNat = character := Char.ofNat_toNat character
  rw [String.utf8EncodeChar]
  generalize character.val.toNat = code at valid back ⊢
  subst back
  by_cases one : code ≤ 0x7F
  · rw [if_pos one]
    refine ⟨_, _, rfl, ?_⟩
    rw [decodeFirst, toNat_ofNat (by omega), lead, if_pos (by omega)]
    rfl
  by_cases two : code ≤ 0x7FF
  · rw [if_neg one, if_pos two]
    refine ⟨_, _, rfl, ?_⟩
    rw [decodeFirst, toNat_ofNat (by omega), lead, if_neg (by omega), if_neg (by omega), if_pos (by omega)]
    dsimp only
    rw [List.singleton_append, continuation_fits _ (by omega) (by omega), continuation]
    congr 3
    omega
  by_cases three : code ≤ 0xFFFF
  · rw [if_neg one, if_neg two, if_pos three]
    refine ⟨_, _, rfl, ?_⟩
    rw [decodeFirst, toNat_ofNat (by omega), lead, if_neg (by omega), if_neg (by omega), if_neg (by omega), if_pos (by omega)]
    dsimp only
    rw [List.cons_append, List.singleton_append, continuation_fits _ (by omega) (by split <;> split <;> omega),
      continuation_fits _ (by omega) (by omega), continuation]
    congr 3
    omega
  · rw [if_neg one, if_neg two, if_neg three]
    refine ⟨_, _, rfl, ?_⟩
    rw [decodeFirst, toNat_ofNat (by omega), lead, if_neg (by omega), if_neg (by omega), if_neg (by omega), if_neg (by omega),
      if_pos (by omega)]
    dsimp only
    rw [List.cons_append, List.cons_append, List.singleton_append, continuation_fits _ (by omega) (by split <;> split <;> omega),
      continuation_fits _ (by omega) (by omega), continuation_fits _ (by omega) (by omega), continuation]
    congr 3
    omega

/-- What is well formed is read as it is. -/
theorem fromUtf8Lossy_encode (characters : List Char) : fromUtf8Lossy (encode characters) = characters := by
  induction characters with
  | nil => rw [encode, List.flatMap_nil, fromUtf8Lossy]
  | cons character characters ih =>
    obtain ⟨first, bytes, spelled, read⟩ := decodeFirst_encode character (encode characters)
    have whole : encode (character :: characters) = first :: (bytes ++ encode characters) := by
      rw [encode, List.flatMap_cons, spelled, List.cons_append]
      rfl
    rw [whole, fromUtf8Lossy, read, ih]
    rfl

end Encoding

end HellRs.Utf8
