import Mathlib
import HellRs.Lib.Base64
import HellRs.Lib.Ensures

/-! # Base64 of evidence

There are two readers. The one of observations checks where a text is padded and which bits its digits leave unused. The one of
attestation payloads checks the padding of each group by itself. A text is the list of its bytes.
-/

namespace HellRs.Evidence

open Base64

def MAX_OBSERVATION_BYTES : ℕ := 4 * 1024 * 1024

/-- `TABLE`. -/
def TABLE : List Byte :=
  [0x41, 0x42, 0x43, 0x44, 0x45, 0x46, 0x47, 0x48, 0x49, 0x4a, 0x4b, 0x4c, 0x4d, 0x4e, 0x4f, 0x50, 0x51, 0x52, 0x53, 0x54, 0x55, 0x56, 0x57,
    0x58, 0x59, 0x5a, 0x61, 0x62, 0x63, 0x64, 0x65, 0x66, 0x67, 0x68, 0x69, 0x6a, 0x6b, 0x6c, 0x6d, 0x6e, 0x6f, 0x70, 0x71, 0x72, 0x73,
    0x74, 0x75, 0x76, 0x77, 0x78, 0x79, 0x7a, 0x30, 0x31, 0x32, 0x33, 0x34, 0x35, 0x36, 0x37, 0x38, 0x39, 0x2b, 0x2f]

def table (index : Byte) : Byte := TABLE.getD index.toNat 0

/-- What is pushed for a chunk of three bytes or less. -/
def encodeChunk (chunk : List Byte) : List Byte :=
  let first := chunk.getD 0 0
  let second := chunk.getD 1 0
  let third := chunk.getD 2 0
  [table (first >>> 2), table ((first &&& 3) <<< 4 ||| second >>> 4),
    if 1 < chunk.length then table ((second &&& 15) <<< 2 ||| third >>> 6) else 0x3d,
    if 2 < chunk.length then table (third &&& 63) else 0x3d]

/-- The loop over `bytes.chunks(3)`. -/
def encodeBase64Bytes : List Byte → List Byte
  | [] => []
  | [first] => encodeChunk [first]
  | [first, second] => encodeChunk [first, second]
  | first :: second :: third :: rest => encodeChunk [first, second, third] ++ encodeBase64Bytes rest

/-- `base64_value` and `base64_sextet`, which differ in the text of the error. -/
def sextetOf (error : String) (byte : Byte) : Except String Byte :=
  if 0x41 ≤ byte ∧ byte ≤ 0x5a then .ok (byte - 0x41)
  else if 0x61 ≤ byte ∧ byte ≤ 0x7a then .ok (byte - 0x61 + 26)
  else if 0x30 ≤ byte ∧ byte ≤ 0x39 then .ok (byte - 0x30 + 52)
  else if byte = 0x2b then .ok 62
  else if byte = 0x2f then .ok 63
  else .error error

def base64Value : Byte → Except String Byte := sextetOf "observation base64 contains an invalid byte"

def base64Sextet : Byte → Except String Byte := sextetOf "attestation payload base64 contains an invalid byte"

/-- What the readers push for a chunk. -/
def pushed (padding : ℕ) (a b c d : Byte) : List Byte :=
  [a <<< 2 ||| b >>> 4] ++ (if padding < 2 then [b <<< 4 ||| c >>> 2] else []) ++ (if padding = 0 then [c <<< 6 ||| d] else [])

/-- The value of a sign that may be padding. -/
def paddedValue (byte : Byte) : Except String Byte := if byte = 0x3d then .ok 0 else base64Value byte

/-- How much of a chunk is padding. -/
def paddingOf (third fourth : Byte) : ℕ := (if fourth = 0x3d then 1 else 0) + (if third = 0x3d then 1 else 0)

/-- The loop of `decode_base64` of observations. -/
def decodeTurns (count : ℕ) : ℕ → List Byte → Except String (List Byte)
  | index, first :: second :: third :: fourth :: rest => do
    let last := index + 1 = count
    let padding := paddingOf third fourth
    if ¬ last ∧ padding ≠ 0 ∨ 2 < padding ∨ third = 0x3d ∧ fourth ≠ 0x3d then .error "observation base64 padding is invalid"
    let a ← base64Value first
    let b ← base64Value second
    let c ← paddedValue third
    let d ← paddedValue fourth
    if padding = 2 ∧ b &&& 0x0f ≠ 0 ∨ padding = 1 ∧ c &&& 0x03 ≠ 0 then .error "observation base64 has noncanonical trailing bits"
    let output ← decodeTurns count (index + 1) rest
    return pushed padding a b c d ++ output
  | _, _ => return []

/-- `decode_base64` of observations. -/
def decodeBase64 (value : List Byte) : Except String (List Byte) :=
  if value.length % 4 ≠ 0 ∨ MAX_OBSERVATION_BYTES * 2 < value.length then .error "observation base64 is truncated or oversized"
  else decodeTurns (value.length / 4) 0 value

namespace Payload

/-- A word of a chunk. -/
def word (byte : Byte) : Except String Byte := if byte = 0x3d then .ok 0 else base64Sextet byte

/-- The loop of `decode_base64` of attestation payloads. -/
def decodeTurns : List Byte → Except String (List Byte)
  | first :: second :: third :: fourth :: rest => do
    let chunk := [first, second, third, fourth]
    let padding := chunk.count 0x3d
    let a ← word first
    let b ← word second
    let c ← word third
    let d ← word fourth
    if 2 < padding ∨ padding ≠ 0 ∧ (chunk.drop (4 - padding)).any (· ≠ 0x3d) then .error "attestation payload base64 padding is invalid"
    let output ← decodeTurns rest
    return pushed padding a b c d ++ output
  | _ => return []

/-- `decode_base64` of attestation payloads. -/
def decodeBase64 (value : List Byte) : Except String (List Byte) :=
  if value.length % 4 ≠ 0 then .error "attestation payload base64 is truncated" else decodeTurns value

end Payload

/-! ## The encoder -/

theorem table_setWidth : ∀ sextet : Sextet, table (sextet.setWidth 8) = digit sextet := by decide

theorem high_bits (byte : Byte) : byte >>> 2 = (byte.extractLsb' 2 6).setWidth 8 := by
  ext i lt
  interval_cases i <;> simp

theorem low_bits (byte : Byte) : byte &&& 63 = (byte.extractLsb' 0 6).setWidth 8 := by
  ext i lt
  interval_cases i <;> simp

theorem second_bits (first second : Byte) : (first &&& 3) <<< 4 ||| second >>> 4 =
    (first.extractLsb' 0 2 ++ second.extractLsb' 4 4).setWidth 8 := by
  ext i lt
  interval_cases i <;> simp [BitVec.getElem_append (x := first.extractLsb' 0 2)]

theorem third_bits (second third : Byte) : (second &&& 15) <<< 2 ||| third >>> 6 =
    (second.extractLsb' 0 4 ++ third.extractLsb' 6 2).setWidth 8 := by
  ext i lt
  interval_cases i <;> simp [BitVec.getElem_append (x := second.extractLsb' 0 4)]

/-- The encoder writes the groups of its bytes. -/
theorem encode_eq (message : List Byte) : encodeBase64Bytes message = text (groups message) := by
  fun_induction groups message with
  | case1 => rfl
  | case2 first =>
    change [table (first >>> 2), table ((first &&& 3) <<< 4 ||| (0 : Byte) >>> 4), 0x3d, 0x3d] = [digit _, digit _, pad, pad]
    rw [high_bits, second_bits, table_setWidth, table_setWidth]
    rfl
  | case3 first second =>
    change [table (first >>> 2), table ((first &&& 3) <<< 4 ||| second >>> 4), table ((second &&& 15) <<< 2 ||| (0 : Byte) >>> 6), 0x3d] =
      [digit _, digit _, digit _, pad]
    rw [high_bits, second_bits, third_bits, table_setWidth, table_setWidth, table_setWidth]
    rfl
  | case4 first second third rest ih =>
    change [table (first >>> 2), table ((first &&& 3) <<< 4 ||| second >>> 4), table ((second &&& 15) <<< 2 ||| third >>> 6),
      table (third &&& 63)] ++ encodeBase64Bytes rest = [digit _, digit _, digit _, digit _] ++ text (groups rest)
    rw [ih, high_bits, second_bits, third_bits, low_bits, table_setWidth, table_setWidth, table_setWidth, table_setWidth]

/-! ## The digits of the readers -/

theorem sextetOf_eq_ok_iff (error : String) (byte value : Byte) :
    sextetOf error byte = .ok value ↔ ∃ sextet : Sextet, byte = digit sextet ∧ value = sextet.setWidth 8 := by
  let found (byte : Byte) : Sextet := ((sextetOf "" byte).toOption.getD 0).setWidth 6
  have each : ∀ byte : Byte, byte = digit (found byte) ∧ sextetOf "" byte = .ok ((found byte).setWidth 8) ∨ sextetOf "" byte = .error "" := by
    decide
  have read : ∀ sextet : Sextet, sextetOf "" (digit sextet) = .ok (sextet.setWidth 8) := by decide
  have same : sextetOf error byte = .ok value ↔ sextetOf "" byte = .ok value := by
    unfold sextetOf
    split_ifs <;> simp
  rw [same]
  constructor
  · intro ok
    rcases each byte with ⟨isDigit, isValue⟩ | failed
    · exact ⟨found byte, isDigit, Except.ok.inj (ok.symm.trans isValue)⟩
    · rw [failed] at ok
      cases ok
  · rintro ⟨sextet, rfl, rfl⟩
    exact read sextet

/-- A digit, or the sign that fills a group for zero. -/
theorem digit_or_pad (error : String) (byte value : Byte) : (if byte = 0x3d then .ok 0 else sextetOf error byte) = .ok value ↔
    byte = pad ∧ value = 0 ∨ ∃ sextet : Sextet, byte = digit sextet ∧ value = sextet.setWidth 8 := by
  split
  next isPad =>
    constructor
    · exact fun same => .inl ⟨isPad, (Except.ok.inj same).symm⟩
    · rintro (⟨-, rfl⟩ | ⟨sextet, same, -⟩)
      · rfl
      · exact absurd (same.symm.trans isPad) (digit_ne_pad sextet)
  next notPad =>
    rw [sextetOf_eq_ok_iff]
    exact ⟨.inr, fun either => either.resolve_left fun isPad => notPad isPad.1⟩

theorem first_byte (a b : Sextet) : a.setWidth 8 <<< 2 ||| b.setWidth 8 >>> 4 = a ++ b.extractLsb' 4 2 := by
  ext i lt
  rw [BitVec.getElem_append]
  interval_cases i <;> simp

theorem second_byte (b c : Sextet) : b.setWidth 8 <<< 4 ||| c.setWidth 8 >>> 2 = b.extractLsb' 0 4 ++ c.extractLsb' 2 4 := by
  ext i lt
  rw [BitVec.getElem_append]
  interval_cases i <;> simp

theorem third_byte (c d : Sextet) : c.setWidth 8 <<< 6 ||| d.setWidth 8 = c.extractLsb' 0 2 ++ d := by
  ext i lt
  rw [BitVec.getElem_append]
  interval_cases i <;> simp

theorem unused_four (b : Sextet) : b.setWidth 8 &&& (0x0f : Byte) = 0 ↔ b.extractLsb' 0 4 = 0#4 := by
  have same : b.setWidth 8 &&& (0x0f : Byte) = (b.extractLsb' 0 4).setWidth 8 := by
    ext i lt
    interval_cases i <;> simp
  rw [same]
  constructor <;> intro zero <;> bv_omega

theorem unused_two (c : Sextet) : c.setWidth 8 &&& (0x03 : Byte) = 0 ↔ c.extractLsb' 0 2 = 0#2 := by
  have same : c.setWidth 8 &&& (0x03 : Byte) = (c.extractLsb' 0 2).setWidth 8 := by
    ext i lt
    interval_cases i <;> simp
  rw [same]
  constructor <;> intro zero <;> bv_omega

theorem pushed_full (a b c d : Sextet) :
    pushed 0 (a.setWidth 8) (b.setWidth 8) (c.setWidth 8) (d.setWidth 8) = (Group.full a b c d).bytes := by
  simp only [pushed, Group.bytes, first_byte, second_byte, third_byte]
  rfl

theorem pushed_two (a b c : Sextet) (d : Byte) : pushed 1 (a.setWidth 8) (b.setWidth 8) (c.setWidth 8) d = (Group.two a b c).bytes := by
  simp only [pushed, Group.bytes, first_byte, second_byte]
  rfl

theorem pushed_one (a b : Sextet) (c d : Byte) : pushed 2 (a.setWidth 8) (b.setWidth 8) c d = (Group.one a b).bytes := by
  simp only [pushed, Group.bytes, first_byte]
  rfl

theorem sextetOf_digit (error : String) (sextet : Sextet) : sextetOf error (digit sextet) = .ok (sextet.setWidth 8) :=
  (sextetOf_eq_ok_iff ..).mpr ⟨sextet, rfl, rfl⟩

theorem digit_eq_pad (sextet : Sextet) : (digit sextet = 61#8) = False := eq_false (digit_ne_pad sextet)

/-! ## The reader of payloads -/

namespace Payload

theorem word_digit (sextet : Sextet) : word (digit sextet) = .ok (sextet.setWidth 8) := by
  rw [word, if_neg (show digit sextet ≠ 0x3d from digit_ne_pad sextet)]
  exact sextetOf_digit _ sextet

theorem word_pad : word 61#8 = .ok 0 := rfl

theorem decodeTurns_group (group : Group) (rest : List Byte) :
    decodeTurns (group.text ++ rest) = do
      let more ← decodeTurns rest
      return group.bytes ++ more := by
  cases group with
  | full a b c d =>
    rw [← pushed_full]
    simp [Group.text, decodeTurns, word_digit, digit_eq_pad, bind, Except.bind]
  | two a b c =>
    rw [← pushed_two a b c 0]
    simp [Group.text, pad, decodeTurns, word_digit, word_pad, digit_eq_pad, bind, Except.bind]
  | one a b =>
    rw [← pushed_one a b 0 0]
    simp [Group.text, pad, decodeTurns, word_digit, word_pad, digit_eq_pad, bind, Except.bind]

theorem exists_group {first second third fourth : Byte} {rest output : List Byte}
    (read : decodeTurns (first :: second :: third :: fourth :: rest) = .ok output) :
    ∃ group : Group, [first, second, third, fourth] = group.text := by
  have sign {byte value : Byte} (ok : word byte = .ok value) : byte = 0x3d ∨ ∃ sextet : Sextet, byte = digit sextet :=
    ((digit_or_pad _ byte value).mp ok).imp And.left fun ⟨sextet, isDigit, _⟩ => ⟨sextet, isDigit⟩
  rw [decodeTurns] at read
  dsimp only at read
  simp only [except_bind_eq_ok_iff] at read
  obtain ⟨a, isA, b, isB, c, isC, d, isD, read⟩ := read
  split at read
  next => cases read
  next ok =>
    clear read
    rcases sign isA with rfl | ⟨a, rfl⟩ <;> rcases sign isB with rfl | ⟨b, rfl⟩ <;> rcases sign isC with rfl | ⟨c, rfl⟩ <;>
      rcases sign isD with rfl | ⟨d, rfl⟩ <;> simp [digit_eq_pad] at ok
    · exact ⟨.one a b, rfl⟩
    · exact ⟨.two a b c, rfl⟩
    · exact ⟨.full a b c d, rfl⟩

theorem decodeTurns_text (parts : List Group) : decodeTurns (text parts) = .ok (Base64.bytes parts) := by
  induction parts with
  | nil => rfl
  | cons group parts ih =>
    change decodeTurns (group.text ++ text parts) = .ok (group.bytes ++ Base64.bytes parts)
    rw [decodeTurns_group, ih]
    rfl

theorem exists_parts : (value : List Byte) → (output : List Byte) → value.length % 4 = 0 → decodeTurns value = .ok output →
    ∃ parts, value = text parts
  | [], _, _, _ => ⟨[], rfl⟩
  | [_], _, whole, _ | [_, _], _, whole, _ | [_, _, _], _, whole, _ => by simp at whole
  | first :: second :: third :: fourth :: rest, output, whole, read => by
    obtain ⟨group, isText⟩ := exists_group read
    have split : first :: second :: third :: fourth :: rest = group.text ++ rest := by
      rw [← isText]
      rfl
    rw [split, decodeTurns_group, except_bind_eq_ok_iff] at read
    obtain ⟨more, read, -⟩ := read
    obtain ⟨parts, rfl⟩ := exists_parts rest more (by simp at whole; omega) read
    exact ⟨group :: parts, split⟩

/-- The reader of payloads takes every list of groups. -/
theorem decodeBase64_eq_ok_iff (value output : List Byte) :
    decodeBase64 value = .ok output ↔ ∃ parts, value = text parts ∧ output = Base64.bytes parts := by
  constructor
  · intro read
    rw [decodeBase64] at read
    split at read
    next => cases read
    next whole =>
      obtain ⟨parts, rfl⟩ := exists_parts value output (by omega) read
      rw [decodeTurns_text] at read
      exact ⟨parts, rfl, (Except.ok.inj read).symm⟩
  · rintro ⟨parts, rfl, rfl⟩
    rw [decodeBase64, if_neg (by simp [length_text]), decodeTurns_text]

end Payload

/-! ## The reader of observations -/

theorem base64Value_digit (sextet : Sextet) : base64Value (digit sextet) = .ok (sextet.setWidth 8) := sextetOf_digit _ sextet

theorem paddedValue_digit (sextet : Sextet) : paddedValue (digit sextet) = .ok (sextet.setWidth 8) := by
  rw [paddedValue, if_neg (show digit sextet ≠ 0x3d from digit_ne_pad sextet), base64Value_digit]

theorem paddedValue_pad : paddedValue 61#8 = .ok 0 := rfl

theorem decodeTurns_group {count index : ℕ} {group : Group} (position : group.IsFull ∨ index + 1 = count) (clean : group.Clean) (rest : List Byte) :
    decodeTurns count index (group.text ++ rest) = do
      let more ← decodeTurns count (index + 1) rest
      return group.bytes ++ more := by
  cases group with
  | full a b c d =>
    rw [← pushed_full]
    simp [Group.text, decodeTurns, base64Value_digit, paddedValue_digit, paddingOf, digit_eq_pad, bind, Except.bind]
  | two a b c =>
    have last : index + 1 = count := position.resolve_left id
    have clean : c.setWidth 8 &&& 3#8 = 0#8 := (unused_two c).mpr clean
    rw [← pushed_two a b c 0]
    simp [Group.text, pad, decodeTurns, base64Value_digit, paddedValue_digit, paddedValue_pad, paddingOf, digit_eq_pad, last, clean, bind, Except.bind]
  | one a b =>
    have last : index + 1 = count := position.resolve_left id
    have clean : b.setWidth 8 &&& 15#8 = 0#8 := (unused_four b).mpr clean
    rw [← pushed_one a b 0 0]
    simp [Group.text, pad, decodeTurns, base64Value_digit, paddedValue_pad, paddingOf, last, clean, bind, Except.bind]

theorem exists_group {count index : ℕ} {first second third fourth : Byte} {rest output : List Byte}
    (read : decodeTurns count index (first :: second :: third :: fourth :: rest) = .ok output) :
    ∃ group : Group, [first, second, third, fourth] = group.text ∧ (group.IsFull ∨ index + 1 = count) ∧ group.Clean := by
  have sign {byte value : Byte} (ok : paddedValue byte = .ok value) :
      byte = 0x3d ∧ value = 0 ∨ ∃ sextet : Sextet, byte = digit sextet ∧ value = sextet.setWidth 8 :=
    (digit_or_pad _ byte value).mp ok
  rw [decodeTurns] at read
  dsimp only at read
  split at read
  next => cases read
  next padded =>
    simp only [except_bind_eq_ok_iff] at read
    obtain ⟨a, isA, b, isB, c, isC, d, isD, read⟩ := read
    obtain ⟨a, rfl, rfl⟩ := (sextetOf_eq_ok_iff ..).mp isA
    obtain ⟨b, rfl, rfl⟩ := (sextetOf_eq_ok_iff ..).mp isB
    split at read
    next => cases read
    next clean =>
      clear read
      rcases sign isC with ⟨rfl, rfl⟩ | ⟨c, rfl, rfl⟩ <;> rcases sign isD with ⟨rfl, rfl⟩ | ⟨d, rfl, rfl⟩ <;>
        simp [paddingOf, digit_eq_pad] at padded clean
      · exact ⟨.one a b, rfl, .inr padded, (unused_four b).mp clean⟩
      · exact ⟨.two a b c, rfl, .inr padded, (unused_two c).mp clean⟩
      · exact ⟨.full a b c d, rfl, .inl trivial, trivial⟩

theorem decodeTurns_text {parts : List Group} (canonical : Canonical parts) {count index : ℕ} (last : index + parts.length = count) :
    decodeTurns count index (text parts) = .ok (Base64.bytes parts) := by
  induction parts generalizing index with
  | nil => rfl
  | cons group parts ih =>
    obtain ⟨position, clean, rest⟩ := canonical
    rw [List.length_cons] at last
    have position : group.IsFull ∨ index + 1 = count := by
      refine position.imp_right fun empty => ?_
      rw [empty] at last
      exact last
    change decodeTurns count index (group.text ++ text parts) = .ok (group.bytes ++ Base64.bytes parts)
    rw [decodeTurns_group position clean, ih rest (by omega)]
    rfl

theorem exists_canonical (count : ℕ) : (index : ℕ) → (value : List Byte) → (output : List Byte) → value.length = 4 * (count - index) →
    decodeTurns count index value = .ok output → ∃ parts, value = text parts ∧ Canonical parts
  | _, [], _, _, _ => ⟨[], rfl, trivial⟩
  | _, [_], _, whole, _ | _, [_, _], _, whole, _ | _, [_, _, _], _, whole, _ => by
    simp only [List.length_cons, List.length_nil] at whole
    omega
  | index, first :: second :: third :: fourth :: rest, output, whole, read => by
    obtain ⟨group, isText, position, clean⟩ := exists_group read
    have split : first :: second :: third :: fourth :: rest = group.text ++ rest := by
      rw [← isText]
      rfl
    simp only [List.length_cons] at whole
    rw [split, decodeTurns_group position clean, except_bind_eq_ok_iff] at read
    obtain ⟨more, read, -⟩ := read
    obtain ⟨parts, rfl, canonical⟩ := exists_canonical count (index + 1) rest more (by omega) read
    rw [length_text] at whole
    have place : group.IsFull ∨ parts = [] := by
      refine position.imp_right fun last => ?_
      apply List.eq_nil_of_length_eq_zero
      omega
    exact ⟨group :: parts, split, place, clean, canonical⟩

/-- The reader of observations takes the canonical lists of groups up to its limit. -/
theorem decodeBase64_eq_ok_iff (value output : List Byte) : decodeBase64 value = .ok output ↔
    ∃ parts, value = text parts ∧ Canonical parts ∧ output = Base64.bytes parts ∧ value.length ≤ MAX_OBSERVATION_BYTES * 2 := by
  constructor
  · intro read
    rw [decodeBase64] at read
    split at read
    next => cases read
    next fits =>
      obtain ⟨parts, rfl, canonical⟩ := exists_canonical _ 0 value output (by omega) read
      have length := length_text parts
      rw [decodeTurns_text canonical (by omega)] at read
      exact ⟨parts, rfl, canonical, (Except.ok.inj read).symm, by omega⟩
  · rintro ⟨parts, rfl, canonical, rfl, fits⟩
    have length := length_text parts
    rw [decodeBase64, if_neg (by omega), decodeTurns_text canonical (by omega)]

/-! ## Both readers -/

theorem encode_bytes {parts : List Group} (canonical : Canonical parts) : encodeBase64Bytes (Base64.bytes parts) = text parts := by
  rw [encode_eq, groups_bytes canonical]

/-- Both readers read what is written, and the reader of observations reads nothing else. The reader of payloads agrees with it on a text
if and only if the text, when it consists of groups, is canonical. -/
theorem base64_canonical_iff (message value : List Byte) :
    Payload.decodeBase64 (encodeBase64Bytes message) = .ok message ∧
    ((encodeBase64Bytes message).length ≤ MAX_OBSERVATION_BYTES * 2 → decodeBase64 (encodeBase64Bytes message) = .ok message) ∧
    (∀ output, decodeBase64 value = .ok output → encodeBase64Bytes output = value) ∧
    ((∀ output, Payload.decodeBase64 value = .ok output → encodeBase64Bytes output = value) ∧
        (value.length ≤ MAX_OBSERVATION_BYTES * 2 →
          ((∃ output, decodeBase64 value = .ok output) ↔ ∃ output, Payload.decodeBase64 value = .ok output)) ↔
      ∀ parts, value = text parts → Canonical parts) := by
  have written := encode_eq message
  have again := (bytes_groups message).symm
  refine ⟨?_, ?_, ?_, ?_⟩
  · exact (Payload.decodeBase64_eq_ok_iff ..).mpr ⟨groups message, written, again⟩
  · exact fun fits => (decodeBase64_eq_ok_iff ..).mpr ⟨groups message, written, canonical_groups message, again, fits⟩
  · intro output read
    obtain ⟨parts, rfl, canonical, rfl, -⟩ := (decodeBase64_eq_ok_iff ..).mp read
    exact encode_bytes canonical
  · constructor
    · rintro ⟨exact_, -⟩ parts rfl
      have same := exact_ _ ((Payload.decodeBase64_eq_ok_iff ..).mpr ⟨parts, rfl, rfl⟩)
      rw [encode_eq] at same
      rw [← text_injective same]
      exact canonical_groups _
    · intro canonical
      constructor
      · intro output read
        obtain ⟨parts, rfl, rfl⟩ := (Payload.decodeBase64_eq_ok_iff ..).mp read
        exact encode_bytes (canonical parts rfl)
      · intro fits
        constructor
        · rintro ⟨output, read⟩
          obtain ⟨parts, rfl, -, rfl, -⟩ := (decodeBase64_eq_ok_iff ..).mp read
          exact ⟨_, (Payload.decodeBase64_eq_ok_iff ..).mpr ⟨parts, rfl, rfl⟩⟩
        · rintro ⟨output, read⟩
          obtain ⟨parts, rfl, rfl⟩ := (Payload.decodeBase64_eq_ok_iff ..).mp read
          exact ⟨_, (decodeBase64_eq_ok_iff ..).mpr ⟨parts, rfl, canonical parts rfl, rfl, fits⟩⟩

/-- `AB==` and `AA==` are the same payload, and a payload may be padded before its end. -/
theorem payload_not_canonical :
    Payload.decodeBase64 [0x41, 0x42, 0x3d, 0x3d] = .ok [0] ∧ encodeBase64Bytes [0] = [0x41, 0x41, 0x3d, 0x3d] ∧
    decodeBase64 [0x41, 0x42, 0x3d, 0x3d] = .error "observation base64 has noncanonical trailing bits" ∧
    Payload.decodeBase64 [0x41, 0x41, 0x3d, 0x3d, 0x41, 0x41, 0x3d, 0x3d] = .ok [0, 0] ∧
    decodeBase64 [0x41, 0x41, 0x3d, 0x3d, 0x41, 0x41, 0x3d, 0x3d] = .error "observation base64 padding is invalid" := by
  decide

end HellRs.Evidence
