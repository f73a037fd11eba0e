import Mathlib
import HellRs.Evidence.JsonCanonical
import HellRs.Evidence.JsonAccepted

/-! # Round trips of evidence

A value within the limits is what the parser makes of its canonical bytes. The bytes depend on the members of an object, not on the order
in which they were inserted.
-/

namespace HellRs.Evidence

open Utf8 (encode)

/-! ## Reading the text of a tree -/

def NoNul (text : Text) : Prop := ∀ character ∈ text, character.toNat ≠ 0

theorem NoNul.cons {character : Char} {text : Text} (first : character.toNat ≠ 0) (rest : NoNul text) : NoNul (character :: text) :=
  List.forall_mem_cons.mpr ⟨first, rest⟩

theorem NoNul.of_all {text : Text} (all : (text.all fun character => character.toNat != 0) = true) : NoNul text := fun character member =>
  bne_iff_ne.mp (List.all_eq_true.mp all character member)

theorem NoNul.append {text text' : Text} (first : NoNul text) (rest : NoNul text') : NoNul (text ++ text') :=
  List.forall_mem_append.mpr ⟨first, rest⟩

theorem Blank.noNul (blank : Blank) : NoNul blank.chars := by
  intro character member
  have isBlank := blank.blank character member
  simp only [List.mem_cons, List.not_mem_nil, or_false] at isBlank
  rcases isBlank with rfl | rfl | rfl | rfl <;> decide

theorem HexDigit.noNul (digit : HexDigit) : digit.char.toNat ≠ 0 := by
  intro zero
  have isValue := digit.isValue
  rw [zero] at isValue
  cases isValue

theorem Piece.noNul (piece : Piece) : NoNul piece.text := by
  cases piece with
  | plain character printable =>
    refine NoNul.cons ?_ nofun
    omega
  | short letter character escape =>
    refine NoNul.cons (by decide) (NoNul.cons (fun zero => ?_) nofun)
    rw [← Char.ofNat_toNat letter, zero] at escape
    cases escape
  | unicode first second third fourth =>
    exact .cons (by decide) (.cons (by decide) (.cons first.noNul (.cons second.noNul (.cons third.noNul (.cons fourth.noNul nofun)))))

theorem Pieces.noNul (pieces : Pieces) : NoNul pieces.text := by
  refine NoNul.cons (by decide) (NoNul.append (fun character member => ?_) (NoNul.cons (by decide) nofun))
  obtain ⟨piece, -, isChar⟩ := List.mem_flatMap.mp member
  exact piece.noNul character isChar

mutual

theorem Cst.noNul : ∀ tree : Cst, NoNul tree.text
  | .null => by
    rw [Cst.text]
    exact .of_all rfl
  | .bool true => by
    rw [Cst.text]
    exact .of_all rfl
  | .bool false => by
    rw [Cst.text]
    exact .of_all rfl
  | .number numeral => by
    rw [Cst.text]
    intro character member
    have bounds := digit_bounds (numeral.digits.run.2 character member)
    omega
  | .string pieces => by
    rw [Cst.text]
    exact pieces.noNul
  | .emptyArray blank => by
    rw [Cst.text]
    exact .cons (by decide) (blank.noNul.append (.cons (by decide) nofun))
  | .array before first after rest => by
    rw [Cst.text]
    exact .cons (by decide) (before.noNul.append (first.noNul.append (after.noNul.append rest.noNul)))
  | .emptyObject blank => by
    rw [Cst.text]
    exact .cons (by decide) (blank.noNul.append (.cons (by decide) nofun))
  | .object before key between gap first after rest => by
    rw [Cst.text]
    exact .cons (by decide) (before.noNul.append (key.noNul.append (between.noNul.append
      (.cons (by decide) (gap.noNul.append (first.noNul.append (after.noNul.append rest.noNul)))))))

theorem Elements.noNul : ∀ rest : Elements, NoNul rest.text
  | .nil => by
    rw [Elements.text]
    exact .cons (by decide) nofun
  | .more before value after rest => by
    rw [Elements.text]
    exact .cons (by decide) (before.noNul.append (value.noNul.append (after.noNul.append rest.noNul)))

theorem Members.noNul : ∀ rest : Members, NoNul rest.text
  | .nil => by
    rw [Members.text]
    exact .cons (by decide) nofun
  | .more before key between gap value after rest => by
    rw [Members.text]
    exact .cons (by decide) (before.noNul.append (key.noNul.append (between.noNul.append
      (.cons (by decide) (gap.noNul.append (value.noNul.append (after.noNul.append rest.noNul)))))))

end

theorem NoNul.encode {text : Text} (noNul : NoNul text) : 0 ∉ encode text := by
  intro member
  obtain ⟨character, isChar, isByte⟩ := List.mem_flatMap.mp member
  rcases Nat.lt_or_ge character.toNat 128 with ascii | wide
  · rw [utf8EncodeChar_ascii ascii, List.mem_singleton] at isByte
    have equal := congrArg UInt8.toNat isByte
    rw [Utf8.toNat_ofNat (by omega)] at equal
    exact noNul character isChar equal.symm
  · obtain ⟨first, bytes, spelled, -, high⟩ := utf8EncodeChar_wide wide
    rw [spelled] at isByte
    exact absurd (high 0 isByte) (by decide)

theorem Blank.not_digit (blank : Blank) : Not isDigit (encode blank.chars) := by
  intro byte isFirst
  exact not_digit_of_blank (encode_blank blank byte (List.mem_of_mem_head? isFirst))

section Document

variable {before after : Blank} {tree : Cst} {value : JsonValue}

theorem encode_document : encode (before.chars ++ (tree.text ++ after.chars)) = encode before.chars ++ encode tree.text ++ encode after.chars := by
  rw [encode_append, encode_append, List.append_assoc]

/-- A tree that has a value passes the scan of its structure when it is not nested too deep. -/
theorem Cst.strictJsonRecord_ok (isValue : tree.read = .ok value) (shallow : tree.depth ≤ 256)
    (small : (encode (before.chars ++ (tree.text ++ after.chars))).length ≤ MAX_RETAINED_JSON_BYTES) :
    strictJsonRecord (encode (before.chars ++ (tree.text ++ after.chars))) = .ok (before.chars ++ (tree.text ++ after.chars)) := by
  have reads : Reads (do StructuralJson.value 0; whitespace : Scanner RecordError Unit)
      (encode before.chars ++ encode tree.text ++ encode after.chars) (.ok ()) (· = []) := by
    refine (tree.scan isValue (Nat.lt_succ_of_le shallow) before).then_ ((reads_whitespace after).weaken fun rest isEnd => ?_) fun rest isEnd => ?_
    · rw [isEnd]
      nofun
    · rw [isEnd, List.append_nil]
      exact after.not_digit
  obtain ⟨index, read⟩ := reads 0 [] rfl
  rw [List.append_nil] at read
  refine strictJsonRecord_ok_iff.mpr ⟨small, fromUtf8_encode _, ?_, ⟨index, []⟩, ?_, rfl⟩
  · exact (before.noNul.append (tree.noNul.append after.noNul)).encode
  · rw [encode_document]
    exact read

/-- The parser makes of the text of a tree what the tree says. -/
theorem Cst.parseJson_ok_iff : parseJson (before.chars ++ (tree.text ++ after.chars)) = .ok value ↔
    strictJsonRecord (encode (before.chars ++ (tree.text ++ after.chars))) = .ok (before.chars ++ (tree.text ++ after.chars)) ∧
      tree.read = .ok value := by
  have deep : tree.depth < (encode (before.chars ++ (tree.text ++ after.chars))).length + 1 := by
    have less := tree.depth_lt
    rw [encode_document, List.length_append, List.length_append]
    omega
  have reads : Reads (do
      let value ← JsonParser.value ((encode (before.chars ++ (tree.text ++ after.chars))).length + 1)
      whitespace
      return value : Scanner JsonError JsonValue)
      (encode before.chars ++ encode tree.text ++ encode after.chars) (tree.read >>= fun found => .ok found) (· = []) := by
    refine (tree.parse deep before).bind (fun found _ => ?_) fun rest isEnd => ?_
    · exact ((reads_whitespace after).map fun _ => found).weaken fun rest isEnd => by
        rw [isEnd]
        nofun
    · rw [isEnd, List.append_nil]
      exact after.not_digit
  obtain ⟨index, read⟩ := reads 0 [] rfl
  rw [List.append_nil, ← encode_document] at read
  rw [Evidence.parseJson_ok_iff, read]
  refine and_congr_right fun _ => ?_
  cases tree.read with
  | error error => exact ⟨fun ⟨_, never, _⟩ => (nomatch never), nofun⟩
  | ok found =>
    constructor
    · rintro ⟨cursor, same, -⟩
      cases same
      rfl
    · rintro same
      cases same
      exact ⟨⟨index, []⟩, rfl, rfl⟩

end Document

/-! ## The order of insertions -/

/-- The members that are inserted one after another. -/
def insertAll (members : List (Text × JsonValue)) : List (Text × JsonValue) :=
  members.foldl (fun values member => (insert member.1 member.2 values).1) []

theorem insertAll_concat (members : List (Text × JsonValue)) (key : Text) (value : JsonValue) :
    insertAll (members ++ [(key, value)]) = (insert key value (insertAll members)).1 := by
  rw [insertAll, List.foldl_append]
  rfl

theorem lookup_cons (key key' : Text) (value : JsonValue) (values : List (Text × JsonValue)) :
    ((key', value) :: values).lookup key = if key = key' then some value else values.lookup key := by
  rw [List.lookup_cons]
  by_cases same : key = key'
  · rw [if_pos same, beq_iff_eq.mpr same]
  · rw [if_neg same, beq_false_of_ne same]

theorem lookup_insert (key other : Text) (value : JsonValue) (values : List (Text × JsonValue)) :
    (insert key value values).1.lookup other = if other = key then some value else values.lookup other := by
  induction values with
  | nil => exact lookup_cons other key value []
  | cons member values ih =>
    obtain ⟨key', value'⟩ := member
    rw [insert]
    by_cases same : key = key'
    · subst same
      rw [if_pos rfl, lookup_cons, lookup_cons]
      split_ifs
      · rfl
      · rfl
    · rw [if_neg same]
      split_ifs with less isKey isKey
      · rw [lookup_cons, if_pos isKey]
      · rw [lookup_cons, if_neg isKey]
      · rw [lookup_cons, ih, if_pos isKey, if_neg (isKey ▸ same)]
      · rw [lookup_cons, lookup_cons, ih, if_neg isKey]

theorem mem_insert {key : Text} {value : JsonValue} {values : List (Text × JsonValue)} {member : Text × JsonValue}
    (isMember : member ∈ (insert key value values).1) : member = (key, value) ∨ member ∈ values := by
  induction values with
  | nil => exact .inl (List.mem_singleton.mp isMember)
  | cons first values ih =>
    obtain ⟨key', value'⟩ := first
    rw [insert] at isMember
    split_ifs at isMember with same less
    · subst same
      rcases List.mem_cons.mp isMember with rfl | later
      · exact .inl rfl
      · exact .inr (List.mem_cons_of_mem _ later)
    · rcases List.mem_cons.mp isMember with rfl | later
      · exact .inl rfl
      · exact .inr later
    · rcases List.mem_cons.mp isMember with rfl | later
      · exact .inr (List.mem_cons_self ..)
      · exact (ih later).imp_right (List.mem_cons_of_mem _)

theorem sorted_insert {key : Text} {value : JsonValue} {values : List (Text × JsonValue)} (sorted : Sorted values) :
    Sorted (insert key value values).1 := by
  induction values with
  | nil => exact List.pairwise_singleton ..
  | cons first values ih =>
    obtain ⟨key', value'⟩ := first
    obtain ⟨less', rest⟩ := List.pairwise_cons.mp sorted
    rw [insert]
    split_ifs with same less
    · subst same
      exact List.pairwise_cons.mpr ⟨less', rest⟩
    · refine List.pairwise_cons.mpr ⟨fun member isMember => ?_, sorted⟩
      rcases List.mem_cons.mp isMember with rfl | later
      · exact less
      · exact List.lt_trans less (less' member later)
    · refine List.pairwise_cons.mpr ⟨fun member isMember => ?_, ih rest⟩
      rcases mem_insert isMember with rfl | later
      · have different : encode key' ≠ encode key := fun equal => same (encode_injective equal).symm
        exact Std.lt_of_le_of_ne (Std.not_lt.mp less) different
      · exact less' member later

theorem sorted_insertAll (members : List (Text × JsonValue)) : Sorted (insertAll members) := by
  induction members using List.reverseRecOn with
  | nil => exact List.Pairwise.nil
  | append_singleton members member ih =>
    rw [insertAll_concat]
    exact sorted_insert ih

/-- The last value of a key is the one that stays. -/
theorem lookup_insertAll (members : List (Text × JsonValue)) (key : Text) :
    (insertAll members).lookup key = members.reverse.lookup key := by
  induction members using List.reverseRecOn with
  | nil => rfl
  | append_singleton members member ih =>
    rw [insertAll_concat, lookup_insert, ih, List.reverse_append]
    exact (lookup_cons key member.1 member.2 members.reverse).symm

/-- The members of a sorted list are what its keys stand for. -/
theorem mem_iff_lookup {values : List (Text × JsonValue)} (sorted : Sorted values) (key : Text) (value : JsonValue) :
    (key, value) ∈ values ↔ values.lookup key = some value := by
  induction values with
  | nil => exact ⟨nofun, nofun⟩
  | cons first values ih =>
    obtain ⟨key', value'⟩ := first
    obtain ⟨less, rest⟩ := List.pairwise_cons.mp sorted
    rw [List.mem_cons, ih rest, lookup_cons]
    by_cases same : key = key'
    · subst same
      have fresh : values.lookup key ≠ some value := fun found =>
        List.lt_irrefl _ (less (key, value) ((ih rest).mpr found))
      rw [if_pos rfl, or_iff_left fresh, Prod.mk.injEq, Option.some.injEq]
      exact ⟨fun isFirst => isFirst.2.symm, fun isValue => ⟨rfl, isValue.symm⟩⟩
    · rw [if_neg same, or_iff_right fun isFirst => same (congrArg Prod.fst isFirst)]

theorem sorted_ext {left right : List (Text × JsonValue)} (sorted : Sorted left) (sorted' : Sorted right)
    (same : ∀ key, left.lookup key = right.lookup key) : left = right := by
  have members : ∀ member, member ∈ left ↔ member ∈ right := fun ⟨key, value⟩ => by
    rw [mem_iff_lookup sorted, mem_iff_lookup sorted', same]
  have nodup {values : List (Text × JsonValue)} (isSorted : Sorted values) : values.Nodup :=
    isSorted.imp fun less equal => by
      subst equal
      exact List.lt_irrefl _ less
  refine ((List.perm_ext_iff_of_nodup (nodup sorted) (nodup sorted')).mpr members).eq_of_pairwise ?_ sorted sorted'
  intro member member' _ _ less less'
  exact absurd less' (List.lt_asymm less)

/-! ## What is read is in order -/

theorem orderedMembers_iff {values : List (Text × JsonValue)} : OrderedMembers values ↔ ∀ member ∈ values, member.2.Ordered := by
  induction values with
  | nil => exact ⟨fun _ member never => absurd never (List.not_mem_nil), fun _ => trivial⟩
  | cons member values ih => rw [OrderedMembers, ih, List.forall_mem_cons]

theorem addMember_ordered {key : Text} {value : JsonValue} {values values' : List (Text × JsonValue)} (sorted : Sorted values)
    (isOrdered : value.Ordered) (ordered : OrderedMembers values) (added : addMember key value values = .ok values') :
    Sorted values' ∧ OrderedMembers values' := by
  obtain ⟨-, perm, sorted'⟩ := addMember_ok sorted added
  refine ⟨sorted', orderedMembers_iff.mpr fun member isMember => ?_⟩
  rcases List.mem_cons.mp (perm.mem_iff.mp isMember) with rfl | before
  · exact isOrdered
  · exact orderedMembers_iff.mp ordered member before

mutual

theorem Cst.read_ordered : ∀ (tree : Cst) {value : JsonValue}, tree.read = .ok value → value.Ordered
  | .null, _, read | .bool _, _, read | .string _, _, read | .emptyArray _, _, read => by
    rw [Cst.read] at read
    cases read
    trivial
  | .number numeral, _, read => by
    rw [Cst.read] at read
    split at read
    · cases read
    · cases read
      trivial
  | .emptyObject _, _, read => by
    rw [Cst.read] at read
    cases read
    exact ⟨List.Pairwise.nil, trivial⟩
  | .array _ first _ rest, _, read => by
    obtain ⟨found, isFirst, read⟩ := except_bind_eq_ok_iff.mp read
    obtain ⟨values, isRest, read⟩ := except_bind_eq_ok_iff.mp read
    cases read
    exact ⟨first.read_ordered isFirst, rest.read_ordered isRest⟩
  | .object _ key _ _ first _ rest, _, read => by
    obtain ⟨found, isFirst, read⟩ := except_bind_eq_ok_iff.mp read
    obtain ⟨values, added, read⟩ := except_bind_eq_ok_iff.mp read
    obtain ⟨all, isRest, read⟩ := except_bind_eq_ok_iff.mp read
    cases read
    obtain ⟨sorted, ordered⟩ := addMember_ordered List.Pairwise.nil (first.read_ordered isFirst) trivial added
    exact rest.read_ordered isRest sorted ordered

theorem Elements.read_ordered : ∀ (rest : Elements) {values : List JsonValue}, rest.read = .ok values → OrderedElements values
  | .nil, _, read => by
    rw [Elements.read] at read
    cases read
    trivial
  | .more _ value _ rest, _, read => by
    obtain ⟨found, isFirst, read⟩ := except_bind_eq_ok_iff.mp read
    obtain ⟨values, isRest, read⟩ := except_bind_eq_ok_iff.mp read
    cases read
    exact ⟨value.read_ordered isFirst, rest.read_ordered isRest⟩

theorem Members.read_ordered : ∀ (rest : Members) {values all : List (Text × JsonValue)}, rest.read values = .ok all → Sorted values →
    OrderedMembers values → Sorted all ∧ OrderedMembers all
  | .nil, _, _, read, sorted, ordered => by
    rw [Members.read] at read
    cases read
    exact ⟨sorted, ordered⟩
  | .more _ key _ _ value _ rest, values, _, read, sorted, ordered => by
    obtain ⟨found, isFirst, read⟩ := except_bind_eq_ok_iff.mp read
    obtain ⟨values', added, read⟩ := except_bind_eq_ok_iff.mp read
    obtain ⟨sorted', ordered'⟩ := addMember_ordered sorted (value.read_ordered isFirst) ordered added
    exact rest.read_ordered read sorted' ordered'

end

/-! ## Round trips -/

/-- What follows the text of a value. -/
def newline : Blank where
  chars := ['\n']
  blank := fun character member => by
    rw [List.mem_singleton.mp member]
    decide

theorem canonicalJsonBytes_eq (value : JsonValue) :
    canonicalJsonBytes value = encode (noBlank.chars ++ (value.cst.text ++ newline.chars)) := by
  rw [canonicalJsonBytes, ← value.cst_text]
  rfl

/-- The canonical bytes of a value within the limits are a text that the parser reads as that value, and whatever the parser makes of the
canonical bytes of a value is that value. The bytes of an object depend on the last value of each key only. No text with two members of one
key is accepted, however the keys are spelled. -/
theorem canonical_round_trip :
    (∀ value : JsonValue, value.Ordered → value.nesting ≤ 256 → (canonicalJsonBytes value).length ≤ MAX_RETAINED_JSON_BYTES →
      ∃ document, fromUtf8 (canonicalJsonBytes value) = some document ∧ parseJson document = .ok value) ∧
    (∀ (value value' : JsonValue) (document : Text), value.Ordered → fromUtf8 (canonicalJsonBytes value) = some document →
      parseJson document = .ok value' → value' = value ∧ canonicalJsonBytes value' = canonicalJsonBytes value) ∧
    (∀ members members' : List (Text × JsonValue), (∀ key, members.reverse.lookup key = members'.reverse.lookup key) →
      canonicalJsonBytes (.object (insertAll members)) = canonicalJsonBytes (.object (insertAll members'))) ∧
    ∀ (document : Text) (value : JsonValue), parseJson document = .ok value → value.Ordered ∧
      (∃ (before : Blank) (tree : Cst) (after : Blank), document = before.chars ++ (tree.text ++ after.chars)) ∧
      ∀ (before : Blank) (tree : Cst) (after : Blank), document = before.chars ++ (tree.text ++ after.chars) →
        tree.read = .ok value ∧ tree.KeysOnce := by
  refine ⟨fun value ordered shallow small => ?_, fun value value' document ordered decoded accepted => ?_, fun members members' same => ?_,
    fun document value accepted => ⟨?_, ?_, ?_⟩⟩
  · refine ⟨_, by rw [canonicalJsonBytes_eq, fromUtf8_encode], ?_⟩
    have isValue := value.cst_read ordered
    refine Cst.parseJson_ok_iff.mpr ⟨Cst.strictJsonRecord_ok isValue ?_ ?_, isValue⟩
    · rwa [value.cst_depth]
    · rwa [← canonicalJsonBytes_eq]
  · rw [canonicalJsonBytes_eq, fromUtf8_encode, Option.some.injEq] at decoded
    subst decoded
    have isValue := (Cst.parseJson_ok_iff.mp accepted).2
    rw [value.cst_read ordered, Except.ok.injEq] at isValue
    exact ⟨isValue.symm, congrArg canonicalJsonBytes isValue.symm⟩
  · rw [sorted_ext (sorted_insertAll members) (sorted_insertAll members') fun key => by rw [lookup_insertAll, lookup_insertAll, same]]
  · obtain ⟨before, tree, after, -, isValue⟩ := parseJson_ok accepted
    exact tree.read_ordered isValue
  · obtain ⟨before, tree, after, split, -⟩ := parseJson_ok accepted
    exact ⟨before, tree, after, split⟩
  · intro before tree after split
    rw [split] at accepted
    have isValue := (Cst.parseJson_ok_iff.mp accepted).2
    exact ⟨isValue, tree.read_keysOnce isValue⟩

end HellRs.Evidence
