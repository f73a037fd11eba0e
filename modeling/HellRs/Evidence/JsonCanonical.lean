import HellRs.Evidence.JsonRecord

/-! # The canonical tree

The encoder writes the text of one tree: without blanks, with every character spelled in its shortest form. A value whose objects are in
the order of their keys, as those of a `BTreeMap` are, is the value of its canonical tree.
-/

namespace HellRs.Evidence

open Utf8 (encode)

/-! ## Characters -/

def hexDigit (value : ℕ) (small : value < 16) : HexDigit where
  char := Nat.digitChar value
  value := value
  ascii := by interval_cases value <;> decide
  isValue := by interval_cases value <;> decide

/-- A character as the encoder spells it. -/
def Piece.of (character : Char) : Piece :=
  if quote : character = '"' then .short '"' '"' rfl
  else if escape : character = '\\' then .short '\\' '\\' rfl
  else if character = '\n' then .short 'n' '\n' rfl
  else if character = '\r' then .short 'r' '\r' rfl
  else if character = '\t' then .short 't' '\t' rfl
  else if control : character.toNat ≤ 0x1f then
    .unicode (hexDigit 0 (by decide)) (hexDigit 0 (by decide)) (hexDigit (character.toNat / 16) (by omega))
      (hexDigit (character.toNat % 16) (by omega)) character (by
        change charFromU32 ((0 * 16 + character.toNat / 16) * 16 + character.toNat % 16) = some character
        rw [Nat.zero_mul, Nat.zero_add, Nat.div_add_mod', charFromU32, if_pos (.inl (by omega)), Char.ofNat_toNat])
  else .plain character (by omega) quote escape

theorem Piece.of_character (character : Char) : (Piece.of character).character = character := by
  rw [Piece.of]
  split_ifs with quote escape newline return_ tab control
  · exact quote.symm
  · exact escape.symm
  · exact newline.symm
  · exact return_.symm
  · exact tab.symm
  · rfl
  · rfl

theorem leftpad_toDigits {value : ℕ} (control : value ≤ 0x1f) :
    (Nat.toDigits 16 value).leftpad 4 '0' = ['0', '0', Nat.digitChar (value / 16), Nat.digitChar (value % 16)] := by
  interval_cases value <;> rfl

theorem Piece.of_text (character : Char) : (Piece.of character).text = pushCharacter character := by
  rw [Piece.of, pushCharacter]
  split_ifs with quote escape newline return_ tab control
  · rfl
  · rfl
  · rfl
  · rfl
  · rfl
  · rw [leftpad_toDigits control]
    rfl
  · rfl

def Pieces.of (value : Text) : Pieces := value.map Piece.of

theorem Pieces.of_decoded (value : Text) : (Pieces.of value).decoded = value := by
  rw [Pieces.decoded, Pieces.of, List.map_map]
  exact List.map_id'' Piece.of_character value

theorem Pieces.of_text (value : Text) : (Pieces.of value).text = pushJsonString value := by
  rw [Pieces.text, Pieces.raw, Pieces.of, List.flatMap_map, pushJsonString]
  simp only [Piece.of_text]

/-! ## Numbers -/

def Numeral.of (value : UInt64) : Numeral where
  digits := Digits.ofNat value.toNat
  canonical := by
    rcases Nat.eq_zero_or_pos value.toNat with zero | positive
    · left
      rw [zero]
      rfl
    · exact .inr (head?_toDigits_ne_zero positive)

theorem parseU64_toDigits (value : UInt64) : parseU64 (Nat.toDigits 10 value.toNat) = some value := by
  rw [parseU64, Nat.ofDigitChars_ten_toDigits, if_pos value.toNat_lt, UInt64.ofNat_toNat]

/-! ## Values -/

mutual

/-- The levels of nesting below a value. -/
def JsonValue.nesting : JsonValue → ℕ
  | .array values => nestingElements values
  | .object values => nestingMembers values
  | _ => 0

def nestingElements : List JsonValue → ℕ
  | [] => 0
  | value :: values => max (value.nesting + 1) (nestingElements values)

def nestingMembers : List (Text × JsonValue) → ℕ
  | [] => 0
  | (_, value) :: values => max (value.nesting + 1) (nestingMembers values)

end

mutual

/-- All objects in a value are in the order of their keys. -/
def JsonValue.Ordered : JsonValue → Prop
  | .array values => OrderedElements values
  | .object values => Sorted values ∧ OrderedMembers values
  | _ => True

def OrderedElements : List JsonValue → Prop
  | [] => True
  | value :: values => value.Ordered ∧ OrderedElements values

def OrderedMembers : List (Text × JsonValue) → Prop
  | [] => True
  | (_, value) :: values => value.Ordered ∧ OrderedMembers values

end

mutual

def JsonValue.cst : JsonValue → Cst
  | .null => .null
  | .bool value => .bool value
  | .number value => .number (Numeral.of value)
  | .string value => .string (Pieces.of value)
  | .array [] => .emptyArray noBlank
  | .array (value :: values) => .array noBlank value.cst noBlank (elements values)
  | .object [] => .emptyObject noBlank
  | .object ((key, value) :: values) => .object noBlank (Pieces.of key) noBlank noBlank value.cst noBlank (members values)

def elements : List JsonValue → Elements
  | [] => .nil
  | value :: values => .more noBlank value.cst noBlank (elements values)

def members : List (Text × JsonValue) → Members
  | [] => .nil
  | (key, value) :: values => .more noBlank (Pieces.of key) noBlank noBlank value.cst noBlank (members values)

end

mutual

theorem JsonValue.cst_text : ∀ value : JsonValue, value.cst.text = pushJsonValue value
  | .null => by rw [JsonValue.cst, Cst.text, pushJsonValue]
  | .bool value => by rw [JsonValue.cst, Cst.text, pushJsonValue]
  | .number value => by
    rw [JsonValue.cst, Cst.text, pushJsonValue]
    rfl
  | .string value => by rw [JsonValue.cst, Cst.text, pushJsonValue, Pieces.of_text]
  | .array [] => by
    rw [JsonValue.cst, Cst.text, pushJsonValue, pushElements]
    rfl
  | .array (value :: values) => by
    rw [JsonValue.cst, Cst.text, pushJsonValue, pushElements, value.cst_text, elements_text values 0]
    simp [noBlank]
  | .object [] => by
    rw [JsonValue.cst, Cst.text, pushJsonValue, pushMembers]
    rfl
  | .object ((key, value) :: values) => by
    rw [JsonValue.cst, Cst.text, pushJsonValue, pushMembers, value.cst_text, members_text values 0, Pieces.of_text]
    simp [noBlank]

theorem elements_text : ∀ (values : List JsonValue) (index : ℕ), (elements values).text = pushElements (index + 1) values ++ [']']
  | [], index => by rw [elements, Elements.text, pushElements, List.nil_append]
  | value :: values, index => by
    rw [elements, Elements.text, pushElements, value.cst_text, elements_text values (index + 1), if_pos (Nat.succ_ne_zero index)]
    simp [noBlank]

theorem members_text : ∀ (values : List (Text × JsonValue)) (index : ℕ), (members values).text = pushMembers (index + 1) values ++ ['}']
  | [], index => by rw [members, Members.text, pushMembers, List.nil_append]
  | (key, value) :: values, index => by
    rw [members, Members.text, pushMembers, value.cst_text, members_text values (index + 1), if_pos (Nat.succ_ne_zero index), Pieces.of_text]
    simp [noBlank]

end

mutual

theorem JsonValue.cst_depth : ∀ value : JsonValue, value.cst.depth = value.nesting
  | .null | .bool _ | .number _ | .string _ => by rw [JsonValue.cst, Cst.depth, JsonValue.nesting] <;> nofun
  | .array [] => by rw [JsonValue.cst, JsonValue.nesting, nestingElements, Cst.depth] <;> nofun
  | .array (value :: values) => by
    have depth := value.cst_depth
    have depth' := elements_depth values
    rw [JsonValue.cst, Cst.depth, JsonValue.nesting, nestingElements]
    omega
  | .object [] => by rw [JsonValue.cst, JsonValue.nesting, nestingMembers, Cst.depth] <;> nofun
  | .object ((key, value) :: values) => by
    have depth := value.cst_depth
    have depth' := members_depth values
    rw [JsonValue.cst, Cst.depth, JsonValue.nesting, nestingMembers]
    omega

theorem elements_depth : ∀ values : List JsonValue, (elements values).depth = nestingElements values - 1
  | [] => by rw [elements, Elements.depth, nestingElements]
  | value :: values => by
    have depth := value.cst_depth
    have depth' := elements_depth values
    rw [elements, Elements.depth, nestingElements]
    omega

theorem members_depth : ∀ values : List (Text × JsonValue), (members values).depth = nestingMembers values - 1
  | [] => by rw [members, Members.depth, nestingMembers]
  | (key, value) :: values => by
    have depth := value.cst_depth
    have depth' := members_depth values
    rw [members, Members.depth, nestingMembers]
    omega

end

theorem addMember_append {key : Text} {value : JsonValue} {values : List (Text × JsonValue)}
    (greater : ∀ member ∈ values, encode member.1 < encode key) : addMember key value values = .ok (values ++ [(key, value)]) := by
  rw [addMember, insert_append greater]

mutual

theorem JsonValue.cst_read : ∀ value : JsonValue, value.Ordered → value.cst.read = .ok value
  | .null, _ => by rw [JsonValue.cst, Cst.read]
  | .bool value, _ => by rw [JsonValue.cst, Cst.read]
  | .number value, _ => by
    rw [JsonValue.cst, Cst.read]
    change (match parseU64 (Nat.toDigits 10 value.toNat) with | none => _ | some value => _) = _
    rw [parseU64_toDigits]
  | .string value, _ => by rw [JsonValue.cst, Cst.read, Pieces.of_decoded]
  | .array [], _ => by rw [JsonValue.cst, Cst.read]
  | .array (value :: values), ordered => by
    rw [JsonValue.Ordered, OrderedElements] at ordered
    rw [JsonValue.cst, Cst.read, value.cst_read ordered.1, elements_read values ordered.2]
    rfl
  | .object [], _ => by rw [JsonValue.cst, Cst.read]
  | .object ((key, value) :: values), ordered => by
    rw [JsonValue.Ordered, OrderedMembers] at ordered
    obtain ⟨sorted, isFirst, areRest⟩ := ordered
    rw [JsonValue.cst, Cst.read, value.cst_read isFirst, Pieces.of_decoded]
    change (do return JsonValue.object (← (members values).read (← addMember key value []))) = _
    rw [addMember_append (by nofun)]
    change (do return JsonValue.object (← (members values).read [(key, value)])) = _
    rw [members_read values [(key, value)] areRest sorted]
    rfl

theorem elements_read : ∀ values : List JsonValue, OrderedElements values → (elements values).read = .ok values
  | [], _ => by rw [elements, Elements.read]
  | value :: values, ordered => by
    rw [OrderedElements] at ordered
    rw [elements, Elements.read, value.cst_read ordered.1, elements_read values ordered.2]
    rfl

theorem members_read : ∀ (values before : List (Text × JsonValue)), OrderedMembers values → Sorted (before ++ values) →
    (members values).read before = .ok (before ++ values)
  | [], before, _, _ => by rw [members, Members.read, List.append_nil]
  | (key, value) :: values, before, ordered, sorted => by
    rw [OrderedMembers] at ordered
    have greater : ∀ member ∈ before, encode member.1 < encode key := fun member isMember =>
      (List.pairwise_append.mp sorted).2.2 member isMember (key, value) (List.mem_cons_self ..)
    rw [members, Members.read, value.cst_read ordered.1, Pieces.of_decoded]
    change (do (members values).read (← addMember key value before)) = _
    rw [addMember_append greater]
    change (members values).read (before ++ [(key, value)]) = _
    rw [members_read values (before ++ [(key, value)]) ordered.2 (by rwa [List.append_assoc]), List.append_assoc]
    rfl

end

end HellRs.Evidence
