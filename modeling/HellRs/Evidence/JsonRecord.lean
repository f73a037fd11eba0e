import HellRs.Evidence.JsonSyntax
import HellRs.Lib.Ensures

/-! # Records that are written and read

What the parser accepts has no object with a repeated key. What the encoder writes passes the scan of its structure, and the parser
reads the value back.
-/

namespace HellRs.Evidence

open Utf8 (encode)

/-! ## Members -/

/-- The members are in the order of their keys. -/
def Sorted (values : List (Text × JsonValue)) : Prop := values.Pairwise fun member member' => encode member.1 < encode member'.1

def keys (values : List (Text × JsonValue)) : List Text := values.map Prod.fst

theorem insert_none {key : Text} {value : JsonValue} {values values' : List (Text × JsonValue)} (sorted : Sorted values)
    (inserted : insert key value values = (values', none)) : key ∉ keys values ∧ values'.Perm ((key, value) :: values) ∧ Sorted values' := by
  induction values generalizing values' with
  | nil =>
    cases inserted
    exact ⟨nofun, List.Perm.refl _, List.pairwise_singleton ..⟩
  | cons member values ih =>
    obtain ⟨key', value'⟩ := member
    obtain ⟨first, rest⟩ := List.pairwise_cons.mp sorted
    rw [insert] at inserted
    split_ifs at inserted with same less
    · cases inserted
    · cases inserted
      refine ⟨fun member => ?_, List.Perm.refl _, List.pairwise_cons.mpr ⟨?_, sorted⟩⟩
      · rcases List.mem_cons.mp member with rfl | later
        · exact same rfl
        · obtain ⟨other, isMember, rfl⟩ := List.mem_map.mp later
          exact List.lt_irrefl _ (List.lt_trans less (first other isMember))
      · intro other isMember
        rcases List.mem_cons.mp isMember with rfl | later
        · exact less
        · exact List.lt_trans less (first other later)
    · obtain ⟨rfl, isNew⟩ := Prod.mk.inj inserted
      obtain ⟨fresh, perm, sorted'⟩ := ih rest (Prod.ext rfl isNew)
      refine ⟨fun member => ?_, ?_, List.pairwise_cons.mpr ⟨?_, sorted'⟩⟩
      · rcases List.mem_cons.mp member with rfl | later
        · exact same rfl
        · exact fresh later
      · exact (List.Perm.cons _ perm).trans (List.Perm.swap ..)
      · intro other isMember
        rcases List.mem_cons.mp (perm.mem_iff.mp isMember) with rfl | later
        · have different : encode key' ≠ encode key := fun equal => same (encode_injective equal).symm
          exact (Std.lt_of_le_of_ne (Std.not_lt.mp less) different)
        · exact first other later

theorem insert_append {key : Text} {value : JsonValue} {values : List (Text × JsonValue)}
    (greater : ∀ member ∈ values, encode member.1 < encode key) : insert key value values = (values ++ [(key, value)], none) := by
  induction values with
  | nil => rfl
  | cons member values ih =>
    obtain ⟨key', value'⟩ := member
    have less := greater _ (List.mem_cons_self ..)
    have different : key ≠ key' := fun same => by
      subst same
      exact List.lt_irrefl _ less
    rw [insert, if_neg different, if_neg (List.lt_asymm less), ih fun other member => greater other (List.mem_cons_of_mem _ member)]
    rfl

theorem addMember_ok {key : Text} {value : JsonValue} {values values' : List (Text × JsonValue)} (sorted : Sorted values)
    (added : addMember key value values = .ok values') : key ∉ keys values ∧ values'.Perm ((key, value) :: values) ∧ Sorted values' := by
  rw [addMember] at added
  rcases inserted : insert key value values with ⟨values'', _ | old⟩
  · rw [inserted] at added
    cases added
    exact insert_none sorted inserted
  · rw [inserted] at added
    cases added

mutual

theorem Cst.read_keysOnce : ∀ (tree : Cst) {value : JsonValue}, tree.read = .ok value → tree.KeysOnce
  | .null, _, _ | .bool _, _, _ | .number _, _, _ | .string _, _, _ | .emptyArray _, _, _ | .emptyObject _, _, _ => trivial
  | .array _ first _ rest, _, read => by
    obtain ⟨found, isFirst, read⟩ := except_bind_eq_ok_iff.mp read
    obtain ⟨values, isRest, -⟩ := except_bind_eq_ok_iff.mp read
    exact ⟨first.read_keysOnce isFirst, rest.read_keysOnce isRest⟩
  | .object _ key _ _ first _ rest, _, read => by
    obtain ⟨found, isFirst, read⟩ := except_bind_eq_ok_iff.mp read
    obtain ⟨values, added, read⟩ := except_bind_eq_ok_iff.mp read
    obtain ⟨all, isRest, -⟩ := except_bind_eq_ok_iff.mp read
    obtain ⟨-, perm, sorted⟩ := addMember_ok List.Pairwise.nil added
    obtain ⟨once, nodup, fresh⟩ := rest.read_keysOnce isRest sorted
    refine ⟨first.read_keysOnce isFirst, once, List.nodup_cons.mpr ⟨fun member => ?_, nodup⟩⟩
    exact fresh key.decoded member ((perm.map Prod.fst).mem_iff.mpr (List.mem_cons_self ..))

theorem Elements.read_keysOnce : ∀ (rest : Elements) {values : List JsonValue}, rest.read = .ok values → rest.KeysOnce
  | .nil, _, _ => trivial
  | .more _ value _ rest, _, read => by
    obtain ⟨found, isFirst, read⟩ := except_bind_eq_ok_iff.mp read
    obtain ⟨values, isRest, -⟩ := except_bind_eq_ok_iff.mp read
    exact ⟨value.read_keysOnce isFirst, rest.read_keysOnce isRest⟩

theorem Members.read_keysOnce : ∀ (rest : Members) {values all : List (Text × JsonValue)}, rest.read values = .ok all → Sorted values →
    rest.KeysOnce ∧ rest.keys.Nodup ∧ ∀ key ∈ rest.keys, key ∉ keys values
  | .nil, _, _, _, _ => ⟨trivial, List.nodup_nil, nofun⟩
  | .more _ key _ _ value _ rest, values, _, read, sorted => by
    obtain ⟨found, isFirst, read⟩ := except_bind_eq_ok_iff.mp read
    obtain ⟨values', added, read⟩ := except_bind_eq_ok_iff.mp read
    obtain ⟨isNew, perm, sorted'⟩ := addMember_ok sorted added
    obtain ⟨once, nodup, fresh⟩ := rest.read_keysOnce read sorted'
    have mem : ∀ other, other ∈ keys values' ↔ other = key.decoded ∨ other ∈ keys values := fun other => by
      rw [keys, (perm.map Prod.fst).mem_iff, List.map_cons, List.mem_cons, keys]
    refine ⟨⟨value.read_keysOnce isFirst, once⟩, List.nodup_cons.mpr ⟨fun member => ?_, nodup⟩, fun other member => ?_⟩
    · exact fresh key.decoded member ((mem _).mpr (.inl rfl))
    · rcases List.mem_cons.mp member with rfl | later
      · exact isNew
      · exact fun before => fresh other later ((mem _).mpr (.inr before))

end

mutual

theorem Cst.depth_lt : ∀ tree : Cst, tree.depth < (encode tree.text).length
  | .null => Nat.succ_pos _
  | .bool true | .bool false => Nat.succ_pos _
  | .number numeral => length_encode_pos (.number numeral)
  | .string pieces => length_encode_pos (.string pieces)
  | .emptyArray blank => length_encode_pos (.emptyArray blank)
  | .emptyObject blank => length_encode_pos (.emptyObject blank)
  | .array before first after rest => by
    have less := first.depth_lt
    have less' := rest.depth_lt
    rw [encode_array, Cst.depth]
    simp only [List.length_append, List.length_singleton]
    omega
  | .object before key between gap first after rest => by
    have less := first.depth_lt
    have less' := rest.depth_lt
    rw [encode_object, Cst.depth]
    simp only [List.length_append, List.length_singleton]
    omega

theorem Elements.depth_lt : ∀ rest : Elements, rest.depth < (encode rest.text).length
  | .nil => Nat.succ_pos _
  | .more before value after rest => by
    have less := value.depth_lt
    have less' := rest.depth_lt
    rw [encode_more, Elements.depth]
    simp only [List.length_append, List.length_singleton]
    omega

theorem Members.depth_lt : ∀ rest : Members, rest.depth < (encode rest.text).length
  | .nil => Nat.succ_pos _
  | .more before key between gap value after rest => by
    have less := value.depth_lt
    have less' := rest.depth_lt
    rw [encode_moreMembers, Members.depth]
    simp only [List.length_append, List.length_singleton]
    omega

end

/-! ## The structure of a text -/

namespace StructuralJson

/-- What the loop of `string` does with a byte, from which on the bytes are given. -/
def onByte (turns : ℕ) (escaped : Bool) (body : List UInt8) (byte : UInt8) (before : List UInt8) : Scanner RecordError (List UInt8) :=
  if byte = 0x22 ∧ ¬escaped then return body
  else if byte = 0x5c ∧ ¬escaped then stringLoop turns true (body ++ [byte])
  else if byte ∈ [0x22, 0x5c, 0x2f, 0x62, 0x66, 0x6e, 0x72, 0x74] ∧ escaped then stringLoop turns false (body ++ [byte])
  else if byte = 0x75 ∧ escaped then do
    hexDigits 4
    stringLoop turns false (body ++ before.take 5)
  else if escaped ∨ byte < 0x20 then throw .invalidStringEscape
  else stringLoop turns false (body ++ [byte])

theorem stringLoop_cons (turns : ℕ) (escaped : Bool) (body : List UInt8) (index : ℕ) (byte : UInt8) (bytes : List UInt8) :
    stringLoop (turns + 1) escaped body ⟨index, byte :: bytes⟩ = onByte turns escaped body byte (byte :: bytes) ⟨index + 1, bytes⟩ := rfl

end StructuralJson

section Structure

open StructuralJson (onByte stringLoop stringLoop_cons hexDigits)

variable {follow : List UInt8 → Prop} {turns : ℕ} {body bytes : List UInt8} {byte : UInt8} {result : Except RecordError (List UInt8)}

/-- A byte that neither ends a string nor begins an escape. -/
theorem scan_byte (notQuote : byte ≠ 0x22) (notEscape : byte ≠ 0x5c) (notControl : ¬byte < 0x20)
    (continues : Reads (stringLoop turns false (body ++ [byte])) bytes result follow) :
    Reads (stringLoop (turns + 1) false body) (byte :: bytes) result follow := by
  intro index rest follows
  obtain ⟨index', read⟩ := continues (index + 1) rest follows
  refine ⟨index', ?_⟩
  rw [← read, List.cons_append, stringLoop_cons, onByte, if_neg (fun both => notQuote both.1), if_neg (fun both => notEscape both.1),
    if_neg (fun both => by cases both.2), if_neg (fun both => by cases both.2),
    if_neg (fun either => either.elim (fun never => by cases never) notControl)]

/-- The sign that begins an escape. -/
theorem scan_escape (continues : Reads (stringLoop turns true (body ++ [0x5c])) bytes result follow) :
    Reads (stringLoop (turns + 1) false body) (0x5c :: bytes) result follow := by
  intro index rest follows
  obtain ⟨index', read⟩ := continues (index + 1) rest follows
  refine ⟨index', ?_⟩
  rw [← read, List.cons_append, stringLoop_cons, onByte, if_neg (fun both => absurd both.1 (by decide)),
    if_pos ⟨rfl, fun never => by cases never⟩]

theorem scan_letter (letter : byte ∈ [0x22, 0x5c, 0x2f, 0x62, 0x66, 0x6e, 0x72, 0x74])
    (continues : Reads (stringLoop turns false (body ++ [byte])) bytes result follow) :
    Reads (stringLoop (turns + 1) true body) (byte :: bytes) result follow := by
  intro index rest follows
  obtain ⟨index', read⟩ := continues (index + 1) rest follows
  refine ⟨index', ?_⟩
  rw [← read, List.cons_append, stringLoop_cons, onByte, if_neg (fun both => both.2 rfl), if_neg (fun both => both.2 rfl), if_pos ⟨letter, rfl⟩]

theorem HexDigit.scan (digit : HexDigit) {count : ℕ} {bytes : List UInt8} {result : Except RecordError Unit}
    (continues : Reads (hexDigits count) bytes result follow) : Reads (hexDigits (count + 1)) (encode [digit.char] ++ bytes) result follow := by
  rw [encode_cons, encode_nil, utf8EncodeChar_ascii digit.ascii, List.append_nil, List.singleton_append, StructuralJson.hexDigits]
  refine Reads.next ?_
  have isDigit : StructuralJson.isHexDigit (UInt8.ofNat digit.char.toNat) = true := by rw [StructuralJson.isHexDigit, digit.isValue]; rfl
  dsimp only
  rw [if_pos isDigit]
  exact continues

theorem scan_unicode (first second third fourth : HexDigit)
    (continues : Reads (stringLoop turns false (body ++ encode ['u', first.char, second.char, third.char, fourth.char])) bytes result follow) :
    Reads (stringLoop (turns + 1) true body) (encode ['u', first.char, second.char, third.char, fourth.char] ++ bytes) result follow := by
  have one (digit : HexDigit) : encode [digit.char] = [UInt8.ofNat digit.char.toNat] := by
    rw [encode_cons, encode_nil, utf8EncodeChar_ascii digit.ascii, List.append_nil]
  have digits : encode [first.char] ++ (encode [second.char] ++ (encode [third.char] ++ (encode [fourth.char] ++ []))) =
      encode [first.char, second.char, third.char, fourth.char] := by
    simp only [encode_cons, encode_nil, List.append_nil]
  have spelled : encode ['u', first.char, second.char, third.char, fourth.char] =
      0x75 :: encode [first.char, second.char, third.char, fourth.char] := rfl
  have five : (encode ['u', first.char, second.char, third.char, fourth.char]).length = 5 := by
    rw [spelled, ← digits, one, one, one, one]
    rfl
  have hex : Reads (hexDigits 4) (encode [first.char, second.char, third.char, fourth.char]) (.ok ()) Anything := by
    rw [← digits]
    exact first.scan (second.scan (third.scan (fourth.scan (Reads.pure ()))))
  intro index rest follows
  have both : Reads (do
      hexDigits 4
      stringLoop turns false (body ++ encode ['u', first.char, second.char, third.char, fourth.char]))
      (encode [first.char, second.char, third.char, fourth.char] ++ bytes) result follow := hex.then_ continues fun _ _ => trivial
  obtain ⟨index', read⟩ := both (index + 1) rest follows
  refine ⟨index', ?_⟩
  rw [← read, List.append_assoc]
  have taken : (encode ['u', first.char, second.char, third.char, fourth.char] ++ (bytes ++ rest)).take 5 =
      encode ['u', first.char, second.char, third.char, fourth.char] := List.take_left' five
  rw [spelled] at taken ⊢
  rw [List.cons_append, stringLoop_cons, onByte, if_neg (fun both => both.2 rfl), if_neg (fun both => both.2 rfl),
    if_neg (fun both => absurd both.1 (by decide)), if_pos ⟨rfl, rfl⟩, ← List.cons_append, taken, List.append_assoc]

/-- The bytes of characters that are not ASCII. -/
theorem scan_high {high : List UInt8} (isHigh : ∀ byte ∈ high, 0x80 ≤ byte)
    (continues : Reads (stringLoop turns false (body ++ high)) bytes result follow) :
    Reads (stringLoop (turns + high.length) false body) (high ++ bytes) result follow := by
  induction high generalizing body with
  | nil =>
    rw [List.append_nil] at continues
    exact continues
  | cons byte high ih =>
    have low := isHigh byte (List.mem_cons_self ..)
    rw [UInt8.le_iff_toNat_le] at low
    change 128 ≤ byte.toNat at low
    refine scan_byte ?_ ?_ ?_ (ih (fun other member => isHigh other (List.mem_cons_of_mem _ member)) ?_)
    · rintro rfl
      exact absurd low (by decide)
    · rintro rfl
      exact absurd low (by decide)
    · rw [UInt8.lt_iff_toNat_lt]
      exact Nat.not_lt.mpr (Nat.le_trans (by decide) low)
    · rwa [List.append_assoc]

theorem Piece.scan (piece : Piece)
    (continues : ∀ turns, bytes.length ≤ turns → Reads (stringLoop turns false (body ++ encode piece.text)) bytes result follow)
    (enough : (encode piece.text ++ bytes).length ≤ turns) :
    Reads (stringLoop turns false body) (encode piece.text ++ bytes) result follow := by
  rw [List.length_append] at enough
  cases piece with
  | plain character printable notQuote notEscape =>
    change (encode [character]).length + bytes.length ≤ turns at enough
    change Reads _ (encode [character] ++ bytes) _ _
    change ∀ turns, bytes.length ≤ turns → Reads (stringLoop turns false (body ++ encode [character])) bytes result follow at continues
    rw [encode_cons, encode_nil, List.append_nil] at enough continues ⊢
    by_cases ascii : character.toNat < 128
    · rw [utf8EncodeChar_ascii ascii] at enough continues ⊢
      have quote : character.toNat ≠ 0x22 := fun same => notQuote (Char.toNat_inj.mp same)
      have escape : character.toNat ≠ 0x5c := fun same => notEscape (Char.toNat_inj.mp same)
      rw [List.length_singleton] at enough
      obtain ⟨turns, rfl⟩ : ∃ more, turns = more + 1 := ⟨turns - 1, by omega⟩
      exact scan_byte (byte_ne (by omega) (by decide : 0x22 < 256) quote) (byte_ne (by omega) (by decide : 0x5c < 256) escape)
        (UInt8.not_lt.mpr ((byte_le (by omega) (by decide : 0x20 < 256)).mpr printable)) (continues turns (by omega))
    · obtain ⟨first, more, spelled, -, high⟩ := utf8EncodeChar_wide (Nat.not_lt.mp ascii)
      rw [spelled] at enough continues ⊢
      obtain ⟨turns, rfl⟩ : ∃ more', turns = more' + (first :: more).length := ⟨turns - (first :: more).length, by omega⟩
      exact scan_high high (continues turns (by omega))
  | short letter character escape =>
    have spelled : encode ['\\', letter] = 0x5c :: encode [letter] := rfl
    change Reads _ (encode ['\\', letter] ++ bytes) _ _
    change (encode ['\\', letter]).length + bytes.length ≤ turns at enough
    change ∀ turns, bytes.length ≤ turns → Reads (stringLoop turns false (body ++ encode ['\\', letter])) bytes result follow at continues
    have isLetter : ∃ byte, encode [letter] = [byte] ∧ byte ∈ [(0x22 : UInt8), 0x5c, 0x2f, 0x62, 0x66, 0x6e, 0x72, 0x74] := by
      unfold shortEscape at escape
      split at escape <;> first | cases escape; done | exact ⟨_, rfl, by decide⟩
    obtain ⟨byte, isByte, member⟩ := isLetter
    rw [spelled, isByte] at enough continues ⊢
    simp only [List.length_cons, List.length_nil] at enough
    obtain ⟨turns, rfl⟩ : ∃ more, turns = more + 1 + 1 := ⟨turns - 2, by omega⟩
    refine scan_escape (scan_letter member ?_)
    rw [List.append_assoc]
    exact continues turns (by omega)
  | unicode first second third fourth character valid =>
    have spelled : encode ['\\', 'u', first.char, second.char, third.char, fourth.char] =
      0x5c :: encode ['u', first.char, second.char, third.char, fourth.char] := rfl
    change Reads _ (encode ['\\', 'u', first.char, second.char, third.char, fourth.char] ++ bytes) _ _
    change (encode ['\\', 'u', first.char, second.char, third.char, fourth.char]).length + bytes.length ≤ turns at enough
    change ∀ turns, bytes.length ≤ turns →
      Reads (stringLoop turns false (body ++ encode ['\\', 'u', first.char, second.char, third.char, fourth.char])) bytes result follow at continues
    rw [spelled] at enough continues ⊢
    rw [List.length_cons] at enough
    have some_ : 0 < (encode ['u', first.char, second.char, third.char, fourth.char]).length := Nat.succ_pos _
    obtain ⟨turns, rfl⟩ : ∃ more, turns = more + 1 + 1 := ⟨turns - 2, by omega⟩
    refine scan_escape (scan_unicode first second third fourth ?_)
    rw [List.append_assoc]
    exact continues turns (by omega)

/-- The scan returns a string as it is spelled. -/
theorem Pieces.scan (pieces : Pieces) : Reads StructuralJson.string (encode pieces.text) (.ok pieces.raw) follow := by
  have loop : ∀ (pieces : Pieces) (turns : ℕ) (body : List UInt8), (encode (pieces.raw ++ ['"'])).length ≤ turns →
      Reads (stringLoop turns false body) (encode (pieces.raw ++ ['"'])) (.ok (body ++ encode pieces.raw)) Anything := by
    intro pieces
    induction pieces with
    | nil =>
      intro turns body enough
      obtain ⟨turns, rfl⟩ : ∃ more, turns = more + 1 := ⟨turns - 1, by change 1 ≤ turns at enough; omega⟩
      intro index rest _
      refine ⟨index + 1, ?_⟩
      change stringLoop (turns + 1) false body ⟨index, 0x22 :: rest⟩ = .ok (body ++ [], ⟨index + 1, rest⟩)
      rw [stringLoop_cons, onByte, if_pos ⟨rfl, fun never => by cases never⟩, List.append_nil]
      rfl
    | cons piece pieces ih =>
      intro turns body enough
      have split : encode (Pieces.raw (piece :: pieces) ++ ['"']) = encode piece.text ++ encode (Pieces.raw pieces ++ ['"']) := by
        rw [Pieces.raw, List.flatMap_cons, List.append_assoc, encode_append]
        rfl
      have whole : encode (Pieces.raw (piece :: pieces)) = encode piece.text ++ encode (Pieces.raw pieces) := by
        rw [Pieces.raw, List.flatMap_cons, encode_append]
        rfl
      rw [split] at enough ⊢
      refine piece.scan (fun turns enough => ?_) enough
      have rest := ih turns (body ++ encode piece.text) enough
      rwa [List.append_assoc, ← whole] at rest
  rw [StructuralJson.string]
  change Reads _ ([0x22] ++ encode (pieces.raw ++ ['"'])) _ _
  refine (Reads.take (fun _ _ => RecordError.invalidDelimiter) 0x22).then_ ?_ fun _ _ => trivial
  intro index rest follows
  obtain ⟨index', read⟩ := loop pieces (encode (pieces.raw ++ ['"']) ++ rest).length [] (by simp) index rest trivial
  refine ⟨index', ?_⟩
  simp only [Bind.bind, StateT.bind, get, getThe, MonadStateOf.get, StateT.get, Except.bind, Pure.pure, Except.pure, read, Except.map,
    List.nil_append, fromUtf8_encode]
  rfl

end Structure

namespace StructuralJson

/-- What `value` does with the first byte. -/
def dispatch (below : Scanner RecordError Unit) (byte : UInt8) : Scanner RecordError Unit :=
  if byte = 0x7b then object below
  else if byte = 0x5b then array below
  else if byte = 0x22 then do
    let _ ← string
  else if byte = 0x74 then keyword [0x74, 0x72, 0x75, 0x65]
  else if byte = 0x66 then keyword [0x66, 0x61, 0x6c, 0x73, 0x65]
  else if byte = 0x6e then keyword [0x6e, 0x75, 0x6c, 0x6c]
  else if isDigit byte then number
  else throw .malformed

theorem valueBelow_succ (levels : ℕ) : valueBelow (levels + 1) = (do
    whitespace
    match ← peek with
    | some byte => dispatch (valueBelow levels) byte
    | none => throw .malformed) := rfl

/-- What follows a value in an array. -/
def arrayRest (value : Scanner RecordError Unit) (turns : ℕ) : Scanner RecordError Unit := do
  whitespace
  if ← consume 0x5d then return ()
  take 0x2c
  arrayLoop value turns

theorem arrayLoop_succ (value : Scanner RecordError Unit) (turns : ℕ) : arrayLoop value (turns + 1) = (do
    value
    arrayRest value turns) := rfl

/-- What follows a member in an object. -/
def objectRest (value : Scanner RecordError Unit) (turns : ℕ) (keys : List Text) : Scanner RecordError Unit := do
  whitespace
  if ← consume 0x7d then return ()
  take 0x2c
  objectLoop value turns keys

theorem objectLoop_succ (value : Scanner RecordError Unit) (turns : ℕ) (keys : List Text) : objectLoop value (turns + 1) keys = (do
    whitespace
    let key ← string
    if key ∈ keys then throw .repeatsKey
    whitespace
    take 0x3a
    value
    objectRest value turns (key :: keys)) := rfl

end StructuralJson

/-- What is spelled in the same way is the same. -/
theorem Pieces.decoded_congr {pieces pieces' : Pieces} (same : pieces.raw = pieces'.raw) : pieces.decoded = pieces'.decoded := by
  obtain ⟨index, read⟩ := @Pieces.read Anything pieces 0 [] trivial
  obtain ⟨index', read'⟩ := @Pieces.read Anything pieces' 0 [] trivial
  rw [Pieces.text, same] at read
  rw [Pieces.text, read] at read'
  exact (Prod.mk.inj (Except.ok.inj read')).1

section Trees

variable {follow : List UInt8 → Prop}

theorem scans_value (blank : Blank) (tree : Cst) {levels : ℕ} {result : Except RecordError Unit}
    (scans : ∀ byte bytes, encode tree.text = byte :: bytes →
      Reads (StructuralJson.dispatch (StructuralJson.valueBelow levels) byte) (byte :: bytes) result follow) :
    Reads (StructuralJson.valueBelow (levels + 1)) (encode blank.chars ++ encode tree.text) result follow := by
  obtain ⟨byte, bytes, spelled, notBlank, -⟩ := tree.encode_text
  rw [StructuralJson.valueBelow_succ, spelled]
  exact (reads_whitespace blank).then_ (Reads.peek (scans byte bytes spelled)) fun rest _ => not_cons notBlank (bytes ++ rest)

theorem scans_arrayLoop {value : Scanner RecordError Unit} {bytes : List UInt8} {after : Blank} {rest : Elements} {turns : ℕ}
    (first : Reads value bytes (.ok ()) (Not isDigit))
    (continues : Reads (StructuralJson.arrayRest value turns) (encode after.chars ++ encode rest.text) (.ok ()) Anything) :
    Reads (StructuralJson.arrayLoop value (turns + 1)) (bytes ++ (encode after.chars ++ encode rest.text)) (.ok ()) Anything := by
  rw [StructuralJson.arrayLoop_succ]
  refine first.then_ continues fun more _ => ?_
  obtain ⟨byte, bytes', spelled, -, notDigit⟩ := rest.encode_text
  rw [spelled, List.append_assoc]
  exact after_not_digit after notDigit _

theorem scans_objectLoop {value : Scanner RecordError Unit} {before : Blank} {key : Pieces} {between after : Blank} {rest : Members}
    {turns : ℕ} {keys : List Text} {bytes : List UInt8} (first : Reads value bytes (.ok ()) (Not isDigit)) (isNew : key.raw ∉ keys)
    (continues : Reads (StructuralJson.objectRest value turns (key.raw :: keys)) (encode after.chars ++ encode rest.text) (.ok ()) Anything) :
    Reads (StructuralJson.objectLoop value (turns + 1) keys)
      (encode before.chars ++ (encode key.text ++ (encode between.chars ++ ([0x3a] ++ (bytes ++ (encode after.chars ++ encode rest.text))))))
      (.ok ()) Anything := by
  rw [StructuralJson.objectLoop_succ]
  refine (reads_whitespace before).then_ ?_ fun _ _ => not_cons (by decide) _
  refine (@Pieces.scan Anything key).then_ ?_ fun _ _ => trivial
  rw [if_neg isNew]
  refine (reads_whitespace between).then_ ?_ fun _ _ => not_cons (by decide) _
  refine (Reads.take (fun _ _ => RecordError.invalidDelimiter) 0x3a).then_ ?_ fun _ _ => trivial
  refine first.then_ continues fun more _ => ?_
  obtain ⟨byte, bytes', spelled, -, notDigit⟩ := rest.encode_text
  rw [spelled, List.append_assoc]
  exact after_not_digit after notDigit _

mutual

/-- What has a value passes the scan when it is not nested too deep. -/
theorem Cst.scan : ∀ (tree : Cst) {value : JsonValue}, tree.read = .ok value → ∀ {levels : ℕ}, tree.depth < levels → ∀ blank : Blank,
    Reads (StructuralJson.valueBelow levels) (encode blank.chars ++ encode tree.text) (.ok ()) (Not isDigit)
  | _, _, _, 0, less, _ => absurd less (Nat.not_lt_zero _)
  | .null, _, _, levels + 1, _, blank => by
    refine scans_value blank .null fun byte bytes spelled => ?_
    cases spelled
    exact (Reads.keyword (fun _ => RecordError.invalidKeyword) [0x6e, 0x75, 0x6c, 0x6c]).weaken fun _ _ => trivial
  | .bool true, _, _, levels + 1, _, blank => by
    refine scans_value blank (.bool true) fun byte bytes spelled => ?_
    cases spelled
    exact (Reads.keyword (fun _ => RecordError.invalidKeyword) [0x74, 0x72, 0x75, 0x65]).weaken fun _ _ => trivial
  | .bool false, _, _, levels + 1, _, blank => by
    refine scans_value blank (.bool false) fun byte bytes spelled => ?_
    cases spelled
    exact (Reads.keyword (fun _ => RecordError.invalidKeyword) [0x66, 0x61, 0x6c, 0x73, 0x65]).weaken fun _ _ => trivial
  | .number numeral, _, ok, levels + 1, _, blank => by
    refine scans_value blank (.number numeral) fun byte bytes spelled => ?_
    rw [Cst.text] at spelled
    obtain ⟨byte', bytes', spelled', areDigits, -⟩ := encode_digits numeral
    rw [spelled] at spelled'
    obtain ⟨rfl, rfl⟩ := List.cons.inj spelled'
    have digit := areDigits byte (List.mem_cons_self ..)
    have other {byte' : UInt8} (outside : byte'.toNat < 0x30 ∨ 0x39 < byte'.toNat) : byte ≠ byte' := digit_ne digit outside
    rw [StructuralJson.dispatch, if_neg (other (.inr (by decide))), if_neg (other (.inr (by decide))), if_neg (other (.inl (by decide))),
      if_neg (other (.inr (by decide))), if_neg (other (.inr (by decide))), if_neg (other (.inr (by decide))), if_pos digit, ← spelled]
    have scan := (reads_number RecordError.leadingZero .outOfRange .outOfRange numeral).map fun _ => ()
    rw [Cst.read] at ok
    cases found : parseU64 numeral.digits.chars with
    | none => rw [found] at ok; cases ok
    | some value => rw [found] at scan; exact scan
  | .string pieces, _, _, levels + 1, _, blank => by
    refine scans_value blank (.string pieces) fun byte bytes spelled => ?_
    have isByte : byte = 0x22 := (List.head_eq_of_cons_eq spelled).symm
    rw [← spelled]
    subst isByte
    exact pieces.scan.map fun _ => ()
  | .emptyArray between, _, _, levels + 1, _, blank => by
    refine scans_value blank (.emptyArray between) fun byte bytes spelled => ?_
    rw [← spelled, encode_emptyArray]
    have isByte : byte = 0x5b := by
      rw [encode_emptyArray] at spelled
      exact (List.head_eq_of_cons_eq spelled).symm
    subst isByte
    change Reads (StructuralJson.array (StructuralJson.valueBelow levels)) _ _ _
    refine (Reads.take (fun _ _ => RecordError.invalidDelimiter) 0x5b).then_ ?_ fun _ _ => trivial
    refine (reads_whitespace between).then_ ?_ fun _ _ => not_cons (by decide) _
    exact Reads.consume_then (Reads.pure _)
  | .emptyObject between, _, _, levels + 1, _, blank => by
    refine scans_value blank (.emptyObject between) fun byte bytes spelled => ?_
    rw [← spelled, encode_emptyObject]
    have isByte : byte = 0x7b := by
      rw [encode_emptyObject] at spelled
      exact (List.head_eq_of_cons_eq spelled).symm
    subst isByte
    change Reads (StructuralJson.object (StructuralJson.valueBelow levels)) _ _ _
    refine (Reads.take (fun _ _ => RecordError.invalidDelimiter) 0x7b).then_ ?_ fun _ _ => trivial
    refine (reads_whitespace between).then_ ?_ fun _ _ => not_cons (by decide) _
    exact Reads.consume_then (Reads.pure _)
  | .array before first after rest, _, ok, levels + 1, less, blank => by
    obtain ⟨found, isFirst, ok⟩ := except_bind_eq_ok_iff.mp ok
    obtain ⟨values, isRest, -⟩ := except_bind_eq_ok_iff.mp ok
    refine scans_value blank (.array before first after rest) fun byte bytes spelled => ?_
    rw [← spelled, encode_array]
    have isByte : byte = 0x5b := by
      rw [encode_array] at spelled
      exact (List.head_eq_of_cons_eq spelled).symm
    subst isByte
    rw [Cst.depth] at less
    change Reads (StructuralJson.array (StructuralJson.valueBelow levels)) _ _ _
    rw [StructuralJson.array]
    refine (Reads.take (fun _ _ => RecordError.invalidDelimiter) 0x5b).then_ ?_ fun _ _ => trivial
    obtain ⟨byte, bytes, spelled, notBlank, notEnd, -⟩ := first.encode_text
    refine (reads_whitespace before).then_ ?_ fun more _ => by rw [spelled]; exact not_cons notBlank _
    refine Reads.consume_else (@Reads.turns _ _ _ _ _ (fun turns => StructuralJson.arrayLoop _ turns) fun turns enough => ?_)
      fun more _ => by
        rw [spelled]
        exact @not_cons (· == 0x5d) _ (beq_false_of_ne notEnd) _
    have some_ := length_encode_pos first
    have fewer := rest.count_lt
    simp only [List.length_append] at enough
    obtain ⟨turns, rfl⟩ : ∃ more, turns = more + 1 := ⟨turns - 1, by omega⟩
    have scan := scans_arrayLoop (@Cst.scan first _ isFirst levels (by omega) noBlank)
      (@Elements.scan rest _ isRest levels turns (by omega) (by omega) after)
    exact scan.weaken fun _ _ => trivial
  | .object before key between gap first after rest, _, ok, levels + 1, less, blank => by
    obtain ⟨found, isFirst, ok⟩ := except_bind_eq_ok_iff.mp ok
    obtain ⟨values, added, ok⟩ := except_bind_eq_ok_iff.mp ok
    obtain ⟨all, isRest, -⟩ := except_bind_eq_ok_iff.mp ok
    obtain ⟨-, perm, sorted⟩ := addMember_ok List.Pairwise.nil added
    refine scans_value blank (.object before key between gap first after rest) fun byte bytes spelled => ?_
    rw [← spelled, encode_object]
    have isByte : byte = 0x7b := by
      rw [encode_object] at spelled
      exact (List.head_eq_of_cons_eq spelled).symm
    subst isByte
    rw [Cst.depth] at less
    change Reads (StructuralJson.object (StructuralJson.valueBelow levels)) _ _ _
    rw [StructuralJson.object]
    refine (Reads.take (fun _ _ => RecordError.invalidDelimiter) 0x7b).then_ ?_ fun _ _ => trivial
    refine (reads_whitespace before).then_ ?_ fun _ _ => not_cons (by decide) _
    refine Reads.consume_else (@Reads.turns _ _ _ _ _ (fun turns => StructuralJson.objectLoop _ turns []) fun turns enough => ?_)
      fun _ _ => @not_cons (· == 0x7d) _ (by decide) _
    have some_ := length_encode_pos first
    have fewer := rest.count_lt
    simp only [List.length_append] at enough
    obtain ⟨turns, rfl⟩ : ∃ more, turns = more + 1 := ⟨turns - 1, by omega⟩
    have spelledKeys : ∀ raw ∈ [key.raw], ∃ pieces : Pieces, pieces.raw = raw ∧ pieces.decoded ∈ keys values := by
      intro raw member
      cases List.mem_singleton.mp member
      exact ⟨key, rfl, (perm.map Prod.fst).mem_iff.mpr (List.mem_cons_self ..)⟩
    have scan := @scans_objectLoop _ noBlank key between after rest turns [] _ (@Cst.scan first _ isFirst levels (by omega) gap) nofun
      (@Members.scan rest _ _ isRest sorted levels turns _ spelledKeys (by omega) (by omega) after)
    exact scan.weaken fun _ _ => trivial

theorem Elements.scan : ∀ (rest : Elements) {values : List JsonValue}, rest.read = .ok values → ∀ {levels : ℕ} (turns : ℕ),
    rest.depth < levels → rest.count ≤ turns → ∀ blank : Blank,
    Reads (StructuralJson.arrayRest (StructuralJson.valueBelow levels) turns) (encode blank.chars ++ encode rest.text) (.ok ()) Anything
  | .nil, _, _, levels, turns, _, _, blank => by
    rw [StructuralJson.arrayRest]
    refine (reads_whitespace blank).then_ ?_ fun more _ => not_cons (by decide) _
    exact Reads.consume_then (Reads.pure _)
  | .more before value after rest, _, _, levels, 0, _, enough, blank => absurd enough (Nat.not_succ_le_zero _)
  | .more before value after rest, _, ok, levels, turns + 1, less, enough, blank => by
    obtain ⟨found, isFirst, ok⟩ := except_bind_eq_ok_iff.mp ok
    obtain ⟨values, isRest, -⟩ := except_bind_eq_ok_iff.mp ok
    rw [Elements.depth] at less
    rw [Elements.count] at enough
    rw [StructuralJson.arrayRest, encode_more]
    refine (reads_whitespace blank).then_ (Reads.consume_else ?_ fun _ _ => @not_cons (· == 0x5d) _ (by decide) _)
      fun more _ => not_cons (by decide) _
    refine (Reads.take (fun _ _ => RecordError.invalidDelimiter) 0x2c).then_ ?_ fun _ _ => trivial
    exact scans_arrayLoop (@Cst.scan value _ isFirst levels (by omega) before)
      (@Elements.scan rest _ isRest levels turns (by omega) (by omega) after)

theorem Members.scan : ∀ (rest : Members) {values all : List (Text × JsonValue)}, rest.read values = .ok all → Sorted values →
    ∀ {levels : ℕ} (turns : ℕ) (seen : List Text),
    (∀ raw ∈ seen, ∃ pieces : Pieces, pieces.raw = raw ∧ pieces.decoded ∈ keys values) → rest.depth < levels → rest.count ≤ turns →
    ∀ blank : Blank,
    Reads (StructuralJson.objectRest (StructuralJson.valueBelow levels) turns seen) (encode blank.chars ++ encode rest.text) (.ok ()) Anything
  | .nil, _, _, _, _, levels, turns, _, _, _, _, blank => by
    rw [StructuralJson.objectRest]
    refine (reads_whitespace blank).then_ ?_ fun more _ => not_cons (by decide) _
    exact Reads.consume_then (Reads.pure _)
  | .more before key between gap value after rest, _, _, _, _, levels, 0, _, _, _, enough, blank => absurd enough (Nat.not_succ_le_zero _)
  | .more before key between gap value after rest, values, _, ok, sorted, levels, turns + 1, seen, spelledKeys, less, enough, blank => by
    obtain ⟨found, isFirst, ok⟩ := except_bind_eq_ok_iff.mp ok
    obtain ⟨values', added, isRest⟩ := except_bind_eq_ok_iff.mp ok
    obtain ⟨fresh, perm, sorted'⟩ := addMember_ok sorted added
    rw [Members.depth] at less
    rw [Members.count] at enough
    rw [StructuralJson.objectRest, encode_moreMembers]
    refine (reads_whitespace blank).then_ (Reads.consume_else ?_ fun _ _ => @not_cons (· == 0x7d) _ (by decide) _)
      fun more _ => not_cons (by decide) _
    refine (Reads.take (fun _ _ => RecordError.invalidDelimiter) 0x2c).then_ ?_ fun _ _ => trivial
    have isNew : key.raw ∉ seen := fun member => by
      obtain ⟨pieces, same, isKey⟩ := spelledKeys key.raw member
      rw [Pieces.decoded_congr same] at isKey
      exact fresh isKey
    have spelledKeys' : ∀ raw ∈ key.raw :: seen, ∃ pieces : Pieces, pieces.raw = raw ∧ pieces.decoded ∈ keys values' := by
      intro raw member
      rcases List.mem_cons.mp member with rfl | before
      · exact ⟨key, rfl, (perm.map Prod.fst).mem_iff.mpr (List.mem_cons_self ..)⟩
      · obtain ⟨pieces, same, isKey⟩ := spelledKeys raw before
        exact ⟨pieces, same, (perm.map Prod.fst).mem_iff.mpr (List.mem_cons_of_mem _ isKey)⟩
    exact @scans_objectLoop _ before key between after rest turns seen _ (@Cst.scan value _ isFirst levels (by omega) gap) isNew
      (@Members.scan rest _ _ isRest sorted' levels turns _ spelledKeys' (by omega) (by omega) after)

end

end Trees

end HellRs.Evidence
