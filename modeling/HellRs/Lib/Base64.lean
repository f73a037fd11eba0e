import Mathlib

/-! # Groups of base64

A text in base64 is a list of groups of four characters. It is canonical if only the last group is padded, and the bits of its last
digit that no byte uses are zero. Canonical lists of groups are in bijection with byte strings.
-/

namespace HellRs.Base64

abbrev Byte := BitVec 8

abbrev Sextet := BitVec 6

/-- The alphabet: capital letters, small letters, decimal digits, a plus and a slash. -/
def alphabet : List Byte :=
  (List.range 26).map (fun place => BitVec.ofNat 8 (65 + place)) ++ (List.range 26).map (fun place => BitVec.ofNat 8 (97 + place)) ++
    (List.range 10).map (fun place => BitVec.ofNat 8 (48 + place)) ++ [43, 47]

def digit (sextet : Sextet) : Byte := alphabet.getD sextet.toNat 0

/-- The sign that fills a group. -/
def pad : Byte := 61

inductive Group where
  | full (a b c d : Sextet)
  | two (a b c : Sextet)
  | one (a b : Sextet)

namespace Group

def text : Group → List Byte
  | full a b c d => [digit a, digit b, digit c, digit d]
  | two a b c => [digit a, digit b, digit c, pad]
  | one a b => [digit a, digit b, pad, pad]

/-- The bytes that lie in the bits of the digits. -/
def bytes : Group → List Byte
  | full a b c d => [a ++ b.extractLsb' 4 2, b.extractLsb' 0 4 ++ c.extractLsb' 2 4, c.extractLsb' 0 2 ++ d]
  | two a b c => [a ++ b.extractLsb' 4 2, b.extractLsb' 0 4 ++ c.extractLsb' 2 4]
  | one a b => [a ++ b.extractLsb' 4 2]

def IsFull : Group → Prop
  | full .. => True
  | two .. | one .. => False

/-- The bits that are in no byte are zero. -/
def Clean : Group → Prop
  | full .. => True
  | two _ _ c => c.extractLsb' 0 2 = 0#2
  | one _ b => b.extractLsb' 0 4 = 0#4

end Group

def text (groups : List Group) : List Byte := groups.flatMap Group.text

def bytes (groups : List Group) : List Byte := groups.flatMap Group.bytes

def Canonical : List Group → Prop
  | [] => True
  | group :: groups => (group.IsFull ∨ groups = []) ∧ group.Clean ∧ Canonical groups

/-- The groups of a byte string. -/
def groups : List Byte → List Group
  | [] => []
  | [first] => [.one (first.extractLsb' 2 6) (first.extractLsb' 0 2 ++ 0#4)]
  | [first, second] => [.two (first.extractLsb' 2 6) (first.extractLsb' 0 2 ++ second.extractLsb' 4 4) (second.extractLsb' 0 4 ++ 0#2)]
  | first :: second :: third :: rest =>
    .full (first.extractLsb' 2 6) (first.extractLsb' 0 2 ++ second.extractLsb' 4 4) (second.extractLsb' 0 4 ++ third.extractLsb' 6 2)
      (third.extractLsb' 0 6) :: groups rest

/-! ## Texts -/

theorem digit_injective : ∀ sextet sextet' : Sextet, digit sextet = digit sextet' → sextet = sextet' := by decide

theorem digit_ne_pad : ∀ sextet : Sextet, digit sextet ≠ pad := by decide

theorem Group.length_text (group : Group) : group.text.length = 4 := by cases group <;> rfl

theorem length_text (groups : List Group) : (text groups).length = 4 * groups.length := by
  induction groups with
  | nil => rfl
  | cons group groups ih =>
    change (group.text ++ text groups).length = _
    rw [List.length_append, group.length_text, ih, List.length_cons]
    omega

theorem Group.text_injective : Function.Injective Group.text := by
  intro group group' same
  have inj {a b : Sextet} : digit a = digit b ↔ a = b := ⟨digit_injective a b, congrArg digit⟩
  cases group <;> cases group' <;>
    simp_all [Group.text, digit_ne_pad, (digit_ne_pad _).symm]

/-- A text is cut into groups in one way. -/
theorem text_injective : Function.Injective text := by
  intro groups groups' same
  induction groups generalizing groups' with
  | nil =>
    cases groups' with
    | nil => rfl
    | cons group groups' =>
      have length := congrArg List.length same
      rw [length_text, length_text] at length
      cases length
  | cons group groups ih =>
    cases groups' with
    | nil =>
      have length := congrArg List.length same
      rw [length_text, length_text] at length
      cases length
    | cons group' groups' =>
      obtain ⟨first, rest⟩ := List.append_inj same (by rw [group.length_text, group'.length_text])
      rw [Group.text_injective first, ih rest]

/-! ## Bytes -/

section Bits

variable {high low : ℕ} (x : BitVec high) (y : BitVec low)

theorem high_append : (x ++ y).extractLsb' low high = x := by
  rw [BitVec.extractLsb'_append_eq_of_le (Nat.le_refl low), Nat.sub_self, BitVec.extractLsb'_eq_self]

theorem low_append : (x ++ y).extractLsb' 0 low = y := by
  rw [BitVec.extractLsb'_append_eq_of_add_le (by omega), BitVec.extractLsb'_eq_self]

theorem byte_62 (byte : Byte) : byte.extractLsb' 2 6 ++ byte.extractLsb' 0 2 = byte := @BitVec.extractLsb'_append_extractLsb' 6 2 byte

theorem byte_44 (byte : Byte) : byte.extractLsb' 4 4 ++ byte.extractLsb' 0 4 = byte := @BitVec.extractLsb'_append_extractLsb' 4 4 byte

theorem byte_26 (byte : Byte) : byte.extractLsb' 6 2 ++ byte.extractLsb' 0 6 = byte := @BitVec.extractLsb'_append_extractLsb' 2 6 byte

theorem sextet_24 (sextet : Sextet) : sextet.extractLsb' 4 2 ++ sextet.extractLsb' 0 4 = sextet :=
  @BitVec.extractLsb'_append_extractLsb' 2 4 sextet

theorem sextet_42 (sextet : Sextet) : sextet.extractLsb' 2 4 ++ sextet.extractLsb' 0 2 = sextet :=
  @BitVec.extractLsb'_append_extractLsb' 4 2 sextet

end Bits

theorem bytes_groups (message : List Byte) : bytes (groups message) = message := by
  fun_induction groups message with
  | case1 => rfl
  | case2 first =>
    change [first.extractLsb' 2 6 ++ (first.extractLsb' 0 2 ++ 0#4).extractLsb' 4 2] = [first]
    rw [high_append, byte_62]
  | case3 first second =>
    change [first.extractLsb' 2 6 ++ (first.extractLsb' 0 2 ++ second.extractLsb' 4 4).extractLsb' 4 2,
      (first.extractLsb' 0 2 ++ second.extractLsb' 4 4).extractLsb' 0 4 ++ (second.extractLsb' 0 4 ++ 0#2).extractLsb' 2 4] = [first, second]
    rw [high_append, high_append, low_append, byte_62, byte_44]
  | case4 first second third rest ih =>
    change [first.extractLsb' 2 6 ++ (first.extractLsb' 0 2 ++ second.extractLsb' 4 4).extractLsb' 4 2,
      (first.extractLsb' 0 2 ++ second.extractLsb' 4 4).extractLsb' 0 4 ++ (second.extractLsb' 0 4 ++ third.extractLsb' 6 2).extractLsb' 2 4,
      (second.extractLsb' 0 4 ++ third.extractLsb' 6 2).extractLsb' 0 2 ++ third.extractLsb' 0 6] ++ bytes (groups rest) =
      [first, second, third] ++ rest
    rw [high_append, high_append, low_append, low_append, byte_62, byte_44, byte_26, ih]

theorem canonical_groups (message : List Byte) : Canonical (groups message) := by
  fun_induction groups message with
  | case1 => trivial
  | case2 first => exact ⟨.inr rfl, low_append (first.extractLsb' 0 2) 0#4, trivial⟩
  | case3 first second => exact ⟨.inr rfl, low_append (second.extractLsb' 0 4) 0#2, trivial⟩
  | case4 first second third rest ih => exact ⟨.inl trivial, trivial, ih⟩

/-- A canonical list of groups is that of its bytes. -/
theorem groups_bytes {parts : List Group} (canonical : Canonical parts) : groups (bytes parts) = parts := by
  induction parts with
  | nil => rfl
  | cons group parts ih =>
    obtain ⟨position, clean, rest⟩ := canonical
    cases group with
    | full a b c d =>
      change Group.full _ _ _ _ :: groups (bytes parts) = _
      rw [ih rest, high_append, low_append, high_append, low_append, high_append, low_append, sextet_24, sextet_42]
    | two a b c =>
      have last : parts = [] := position.resolve_left id
      have clean : c.extractLsb' 0 2 = 0#2 := clean
      subst last
      change [Group.two _ _ _] = _
      rw [high_append, low_append, high_append, low_append, ← clean, sextet_24, sextet_42]
    | one a b =>
      have last : parts = [] := position.resolve_left id
      have clean : b.extractLsb' 0 4 = 0#4 := clean
      subst last
      change [Group.one _ _] = _
      rw [high_append, low_append, ← clean, sextet_24]

end HellRs.Base64
