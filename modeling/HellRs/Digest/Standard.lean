import HellRs.Digest.Sha256

/-! # The digest is that of the standard

A compression is what the standard does with a block. The hasher holds what the whole blocks of the message so far make,
and the bytes after them; an update with any number of bytes keeps that, and `finish` works in the padding.
-/

namespace HellRs.Digest

open SecureHash

section Compress

/-- The words of a block of bytes. -/
def words (block : List Byte) (index : ℕ) : Word := fromBeBytes ((block.drop (4 * index)).take 4)

theorem rotateRight_eq (word : Word) {count : ℕ} (small : count < 32) : word.rotateRight count = rotr word count := by
  rw [BitVec.rotateRight_def, Nat.mod_eq_of_lt small, rotr]

theorem ROUND_eq : ROUND = (List.range 64).map roundConstant := by decide +kernel

theorem INITIAL_eq : INITIAL = initial.toList := by decide +kernel

theorem mix_eq (working : Words) (turn : Word × Word) : mix working turn = working.round turn.2 turn.1 := by
  simp (disch := decide) only [mix, Words.round, bigSigma0, bigSigma1, ch, maj, rotateRight_eq]

/-- The words that the schedule has up to an index. -/
def scheduled (block : List Byte) (count : ℕ) : List Word :=
  (List.range 64).map fun index => if index < count then schedule (words block) index else 0

theorem load_eq (block : List Byte) : load block = scheduled block 16 := by
  refine List.map_congr_left fun index _ => ?_
  unfold schedule
  split_ifs <;> rfl

theorem getD_scheduled (block : List Byte) {count index : ℕ} (inside : index < count) (bound : count ≤ 64) :
    (scheduled block count).getD index 0 = schedule (words block) index := by
  rw [scheduled, List.getD_eq_getElem?_getD, List.getElem?_map, List.getElem?_range (by omega)]
  simp [inside]

theorem extend_scheduled (block : List Byte) {count : ℕ} (later : 16 ≤ count) (bound : count < 64) :
    extend (scheduled block count) count = scheduled block (count + 1) := by
  have next : schedule (words block) count = schedule (words block) (count - 16) +
      smallSigma0 (schedule (words block) (count - 15)) + schedule (words block) (count - 7) +
      smallSigma1 (schedule (words block) (count - 2)) := by
    rw [schedule, if_neg (by omega)]
    ac_rfl
  simp only [extend]
  rw [getD_scheduled block (by omega) bound.le, getD_scheduled block (by omega) bound.le,
    getD_scheduled block (by omega) bound.le, getD_scheduled block (by omega) bound.le]
  simp (disch := decide) only [rotateRight_eq]
  rw [← smallSigma0, ← smallSigma1, ← next]
  refine List.ext_getElem (by simp [scheduled]) fun index _ inside => ?_
  rw [List.getElem_set]
  simp only [scheduled, List.getElem_map, List.getElem_range]
  by_cases same : count = index
  · simp [same]
  · simp only [same, ↓reduceIte, show index < count ↔ index < count + 1 by omega]

theorem foldl_extend (block : List Byte) {count : ℕ} (bound : count ≤ 48) :
    (List.range' 16 count).foldl extend (load block) = scheduled block (16 + count) := by
  induction count with
  | zero => exact load_eq block
  | succ count ih =>
    rw [List.range'_1_concat, List.foldl_append, ih (by omega)]
    exact extend_scheduled block (by omega) (by omega)

theorem scheduled_eq (block : List Byte) : scheduled block 64 = (List.range 64).map (schedule (words block)) :=
  List.map_congr_left fun _ inside => if_pos (List.mem_range.mp inside)

/-- A compression works a block into the hash value. -/
theorem compress_eq (hash : Words) (block : List Byte) :
    compress hash.toList block = (hashBlock hash (words block)).toList := by
  have mixed : ((List.range' 16 48).foldl extend (load block) |>.zip ROUND).foldl mix hash = rounds (words block) hash := by
    rw [foldl_extend block le_rfl, scheduled_eq, ROUND_eq, List.zip_map', List.foldl_map, rounds]
    simp only [mix_eq]
  rw [compress, show workingVariables hash.toList = hash from rfl, mixed]
  simp only [hashBlock, Words.add, Words.toList, List.zipWith_cons_cons, List.zipWith_nil_left, BitVec.add_comm]

end Compress

section Blocks

variable {state : List Word} {bytes more : List Byte}

theorem compressBlocks_short (state : List Word) (short : bytes.length < 64) :
    Sha256.compressBlocks state bytes = (state, bytes) := by
  rw [Sha256.compressBlocks, if_neg (Nat.not_le.mpr short)]

theorem compressBlocks_block (state : List Word) (size : bytes.length = 64) (more : List Byte) :
    Sha256.compressBlocks state (bytes ++ more) = Sha256.compressBlocks (compress state bytes) more := by
  rw [Sha256.compressBlocks, if_pos (by rw [List.length_append]; omega), List.take_left' size, List.drop_left' size]

theorem length_compressBlocks (state : List Word) (bytes : List Byte) :
    (Sha256.compressBlocks state bytes).2.length = bytes.length % 64 := by
  fun_induction Sha256.compressBlocks state bytes with
  | case1 state bytes whole ih =>
    rw [ih, List.length_drop]
    omega
  | case2 state bytes short => exact (Nat.mod_eq_of_lt (Nat.not_le.mp short)).symm

/-- What is left of the first bytes goes before the next. -/
theorem compressBlocks_append (state : List Word) (bytes more : List Byte) :
    Sha256.compressBlocks state (bytes ++ more) =
      Sha256.compressBlocks (Sha256.compressBlocks state bytes).1 ((Sha256.compressBlocks state bytes).2 ++ more) := by
  fun_induction Sha256.compressBlocks state bytes with
  | case1 state bytes whole ih =>
    have size : (bytes.take 64).length = 64 := by rw [List.length_take]; omega
    rw [← ih, ← compressBlocks_block state size, ← List.append_assoc, List.take_append_drop]
  | case2 state bytes short => rfl

theorem foldl_bytes (before : ℕ) (bytes : List Byte) :
    spelled before (byteBits bytes) = bytes.foldl (fun value byte => 256 * value + byte.toNat) before := by
  induction bytes generalizing before with
  | nil => rfl
  | cons byte bytes ih =>
    rw [byteBits_cons, spelled_append, ih, spelled_bitsOf, Nat.mod_eq_of_lt byte.isLt]
    rfl

theorem blockWord_byteBits (block : List Byte) (index : ℕ) : blockWord (byteBits block) 0 index = words block index := by
  rw [blockWord, show 512 * 0 + 32 * index = 8 * (4 * index) by ring, drop_byteBits, show 32 = 8 * 4 by rfl, take_byteBits,
    wordOf, foldl_bytes]
  rfl

/-- The loop over the blocks makes the hash value of them all. -/
theorem compressBlocks_hashBlocks (hash : Words) (bytes : List Byte) :
    (Sha256.compressBlocks hash.toList bytes).1 = (hashBlocks (byteBits bytes) hash).toList := by
  induction bound : bytes.length using Nat.strong_induction_on generalizing hash bytes with
  | _ bound' ih =>
    rw [Sha256.compressBlocks]
    split_ifs with whole
    · have size : (bytes.take 64).length = 64 := by rw [List.length_take]; omega
      rw [compress_eq, ih (bytes.drop 64).length (by rw [List.length_drop]; omega) _ _ rfl]
      nth_rewrite 3 [← List.take_append_drop 64 bytes]
      rw [byteBits_append, hashBlocks_append (by rw [length_byteBits, size]), funext (blockWord_byteBits _)]
    · rw [hashBlocks_short (by rw [length_byteBits]; omega)]

end Blocks

section Hasher

/-- What the hasher holds after the bytes of a message. -/
structure Sha256.Holds (hasher : Sha256) (message : List Byte) : Prop where
  total : hasher.totalBytes = min message.length (2 ^ 64 - 1)
  size : hasher.block.length = 64
  filled : hasher.blockLen < 64
  split : compressBlocks INITIAL message = (hasher.state, hasher.block.take hasher.blockLen)

variable {hasher : Sha256} {message bytes : List Byte}

theorem Sha256.length_copyInto {block : List Byte} {offset : ℕ} (size : block.length = 64) (fits : offset + bytes.length ≤ 64) :
    (copyInto block offset bytes).length = 64 := by
  simp only [copyInto, List.length_append, List.length_take, List.length_drop, size]
  omega

theorem Sha256.take_copyInto {block : List Byte} {offset : ℕ} (size : block.length = 64) (fits : offset ≤ 64) :
    (copyInto block offset bytes).take (offset + bytes.length) = block.take offset ++ bytes := by
  rw [copyInto, List.take_left']
  rw [List.length_append, List.length_take, size, Nat.min_eq_left fits]

theorem Sha256.holds_new : new.Holds [] := ⟨rfl, rfl, by decide, compressBlocks_short _ (by decide)⟩

/-- With an empty block, whole blocks are worked in and the rest is kept. -/
theorem Sha256.updateBlocks_holds (total : hasher.totalBytes = min message.length (2 ^ 64 - 1))
    (size : hasher.block.length = 64)
    (split : compressBlocks INITIAL message = compressBlocks hasher.state bytes) :
    (hasher.updateBlocks bytes).Holds message := by
  have rest := length_compressBlocks hasher.state bytes
  refine ⟨total, length_copyInto size (by omega), ?_, ?_⟩
  · simp only [updateBlocks]
    omega
  · have taken := @take_copyInto (compressBlocks hasher.state bytes).2 hasher.block 0 size (Nat.zero_le _)
    rw [Nat.zero_add, List.take_zero, List.nil_append] at taken
    simp only [updateBlocks]
    rw [split, taken]

theorem Sha256.Holds.length_buffer (holds : hasher.Holds message) : (hasher.block.take hasher.blockLen).length = hasher.blockLen := by
  rw [List.length_take, holds.size, Nat.min_eq_left holds.filled.le]

/-- An update of any length continues the message. -/
theorem Sha256.Holds.update (holds : hasher.Holds message) (bytes : List Byte) :
    (hasher.update bytes).Holds (message ++ bytes) := by
  have total : min (hasher.totalBytes + bytes.length) (2 ^ 64 - 1) = min (message ++ bytes).length (2 ^ 64 - 1) := by
    rw [holds.total, List.length_append]
    omega
  have split := compressBlocks_append INITIAL message bytes
  rw [holds.split] at split
  have buffer := holds.length_buffer
  have filled := holds.filled
  simp only [Sha256.update]
  split_ifs with empty full
  · refine updateBlocks_holds total holds.size (split.trans ?_)
    simp [empty]
  · -- the block is completed first
    have size : (bytes.take (min (64 - hasher.blockLen) bytes.length)).length = 64 - hasher.blockLen := by
      rw [List.length_take]
      omega
    have block : copyInto hasher.block hasher.blockLen (bytes.take (min (64 - hasher.blockLen) bytes.length)) =
        hasher.block.take hasher.blockLen ++ bytes.take (min (64 - hasher.blockLen) bytes.length) := by
      rw [copyInto, List.drop_eq_nil_of_le (by rw [size, holds.size]; omega), List.append_nil]
    refine updateBlocks_holds total (length_copyInto holds.size (by omega)) (split.trans ?_)
    have whole := @compressBlocks_block (hasher.block.take hasher.blockLen ++
      bytes.take (min (64 - hasher.blockLen) bytes.length)) hasher.state (by rw [List.length_append, buffer, size]; omega)
      (bytes.drop (min (64 - hasher.blockLen) bytes.length))
    rw [List.append_assoc, List.take_append_drop] at whole
    rw [whole, block]
  · -- the block stays incomplete
    have copy : min (64 - hasher.blockLen) bytes.length = bytes.length := by omega
    rw [copy, List.take_length] at *
    refine ⟨total, length_copyInto holds.size (by omega), show hasher.blockLen + bytes.length < 64 by omega, split.trans ?_⟩
    rw [take_copyInto holds.size filled.le]
    exact compressBlocks_short _ (by rw [List.length_append, buffer]; omega)

theorem Sha256.Holds.updates (holds : hasher.Holds message) (pieces : List (List Byte)) :
    (pieces.foldl Sha256.update hasher).Holds (message ++ pieces.flatten) := by
  induction pieces generalizing hasher message with
  | nil => simpa using holds
  | cons piece pieces ih =>
    rw [List.foldl_cons, List.flatten_cons, ← List.append_assoc]
    exact ih (holds.update piece)

/-- The bytes that `finish` adds to a message. -/
def paddingBytes (length : ℕ) : List Byte :=
  0x80 :: List.replicate ((119 - length % 64) % 64) 0 ++ bytesOf 8 (length * 8)

theorem length_bytesOf (count value : ℕ) : (bytesOf count value).length = count := by
  induction count generalizing value with
  | zero => rfl
  | succ count ih => rw [bytesOf, List.length_append, ih, List.length_singleton]

theorem byteBits_paddingBytes (length : ℕ) : byteBits (paddingBytes length) = padding (8 * length) := by
  have zeros : (959 - 8 * length % 512) % 512 = 7 + 8 * ((119 - length % 64) % 64) := by omega
  rw [paddingBytes, byteBits_append, byteBits_cons, byteBits_replicate_zero, byteBits_bytesOf, padding, zeros,
    List.replicate_add, Nat.mul_comm length 8]
  rfl

/-- A block that ends with what is copied into it. -/
theorem Sha256.copyInto_end {block : List Byte} {offset : ℕ} (size : block.length = 64)
    (fits : offset + bytes.length = 64) : copyInto block offset bytes = block.take offset ++ bytes := by
  rw [copyInto, List.drop_eq_nil_of_le (by omega), List.append_nil]

/-- The one after the message, and zeros to the end of the block. -/
theorem Sha256.copyInto_zeros {block : List Byte} {offset : ℕ} (size : block.length = 64) (filled : offset < 64) :
    copyInto (copyInto block offset [0x80]) (offset + 1) (List.replicate (64 - (offset + 1)) 0) =
      block.take offset ++ 0x80 :: List.replicate (63 - offset) 0 := by
  have fits : offset + ([0x80] : List Byte).length ≤ 64 := filled
  rw [copyInto_end (length_copyInto size fits) (by rw [List.length_replicate]; omega),
    show offset + 1 = offset + ([0x80] : List Byte).length from rfl, take_copyInto size filled.le, List.append_assoc,
    List.singleton_append, List.length_singleton, show 64 - (offset + 1) = 63 - offset by omega]

theorem compressBlocks_last (state : List Word) (size : bytes.length = 64) :
    (Sha256.compressBlocks state bytes).1 = compress state bytes := by
  have last := compressBlocks_block state size []
  rw [List.append_nil] at last
  rw [last, @compressBlocks_short [] _ (by decide)]

/-- The last one or two blocks are the rest of the message and the padding. -/
theorem Sha256.Holds.finish (holds : hasher.Holds message) (bounded : message.length < 2 ^ 61) :
    hasher.finish = (compressBlocks INITIAL (message ++ paddingBytes message.length)).1.flatMap
      fun word => bytesOf 4 word.toNat := by
  have filled := holds.filled
  have buffer := holds.length_buffer
  have blockLen : hasher.blockLen = message.length % 64 := by
    rw [← length_compressBlocks INITIAL, holds.split, buffer]
  have bitLen : hasher.totalBytes * 8 % 2 ^ 64 = message.length * 8 := by
    rw [holds.total]
    omega
  have length := length_bytesOf 8 (message.length * 8)
  have zeros : (hasher.block.take hasher.blockLen ++ 0x80 :: List.replicate (63 - hasher.blockLen) 0).length = 64 := by
    rw [List.length_append, buffer, List.length_cons, List.length_replicate]
    omega
  rw [compressBlocks_append, holds.split, paddingBytes, ← blockLen]
  simp only [Sha256.finish, bitLen, copyInto_zeros holds.size filled]
  congr 1
  generalize hasher.block.take hasher.blockLen = kept at buffer zeros ⊢
  split_ifs with late
  · -- the length does not fit behind the message
    rw [copyInto_end List.length_replicate (by omega), List.take_replicate,
      show (119 - hasher.blockLen) % 64 = 63 - hasher.blockLen + 56 by omega, List.replicate_add,
      ← List.cons_append, List.append_assoc, ← List.append_assoc, compressBlocks_block _ zeros, compressBlocks_last]
    · rfl
    · rw [List.length_append, length, List.length_replicate]
  · rw [copyInto_end zeros (by omega), List.take_append, List.take_of_length_le (by omega), buffer,
      show 64 - 8 - hasher.blockLen = 55 - hasher.blockLen + 1 by omega, List.take_succ_cons, List.take_replicate,
      Nat.min_eq_left (by omega), show (119 - hasher.blockLen) % 64 = 55 - hasher.blockLen by omega, List.append_assoc,
      compressBlocks_last]
    rw [List.length_append, List.length_append, buffer, length, List.length_cons, List.length_replicate]
    omega

/-- A message in pieces, however it is cut, has the digest of the standard. -/
theorem Sha256.finish_updates (pieces : List (List Byte)) (bounded : pieces.flatten.length < 2 ^ 61) :
    byteBits (pieces.foldl Sha256.update new).finish = sha256 (byteBits pieces.flatten) := by
  have holds := holds_new.updates pieces
  rw [List.nil_append] at holds
  have words : ∀ words : List Word,
      byteBits (words.flatMap fun word => bytesOf 4 word.toNat) = words.flatMap fun word => bitsOf 32 word.toNat := by
    intro words
    induction words with
    | nil => rfl
    | cons word words ih => rw [List.flatMap_cons, byteBits_append, ih, byteBits_bytesOf, List.flatMap_cons]
  rw [holds.finish bounded, words, INITIAL_eq, compressBlocks_hashBlocks, byteBits_append, byteBits_paddingBytes, sha256,
    length_byteBits]

end Hasher

section Hex

/-- The bytes of a hexadecimal digit of either case. -/
def IsHexDigit (byte : Byte) : Prop := 48 ≤ byte ∧ byte ≤ 57 ∨ 97 ≤ byte ∧ byte ≤ 102 ∨ 65 ≤ byte ∧ byte ≤ 70

/-- `to_ascii_lowercase`. -/
def toLower (byte : Byte) : Byte := if 65 ≤ byte ∧ byte ≤ 90 then byte + 32 else byte

instance (byte : Byte) : Decidable (IsHexDigit byte) := inferInstanceAs (Decidable (_ ∨ _ ∨ _))

theorem nibble_hexDigit : ∀ byte : Byte, nibble (hexDigit (byte >>> 4)) = .ok (byte >>> 4) ∧
    nibble (hexDigit (byte &&& 0x0f)) = .ok (byte &&& 0x0f) ∧ byte >>> 4 <<< 4 ||| byte &&& 0x0f = byte := by
  decide

theorem exists_nibble : ∀ byte : Byte, IsHexDigit byte →
    ∃ value : BitVec 4, nibble byte = .ok (value.setWidth 8) ∧ hexDigit (value.setWidth 8) = toLower byte := by
  decide

theorem not_isHexDigit_nibble : ∀ byte : Byte, ¬ IsHexDigit byte → ∀ value, nibble byte ≠ .ok value := by
  intro byte other value accepted
  unfold nibble at accepted
  unfold IsHexDigit at other
  split_ifs at accepted <;> tauto

theorem halves : ∀ high low : BitVec 4,
    (high.setWidth 8 <<< 4 ||| low.setWidth 8 : Byte) >>> 4 = high.setWidth 8 ∧
      (high.setWidth 8 <<< 4 ||| low.setWidth 8 : Byte) &&& 0x0f = low.setWidth 8 := by
  decide

theorem pairs_hex (digest : List Byte) : pairs (hex digest) = .ok digest := by
  induction digest with
  | nil => rfl
  | cons byte digest ih =>
    obtain ⟨high, low, whole⟩ := nibble_hexDigit byte
    rw [hex, List.flatMap_cons, ← hex]
    simp only [List.cons_append, List.nil_append, pairs, high, low, ih, bind, Except.bind, pure, Except.pure, whole]

theorem hex_injective : Function.Injective hex := fun digest digest' same => by
  have read := congrArg pairs same
  rw [pairs_hex, pairs_hex] at read
  exact Except.ok.inj read

theorem length_hex (digest : List Byte) : (hex digest).length = digest.length * 2 := by
  simp [hex, List.length_flatMap, Nat.mul_comm]

/-- Digits of either case are read. -/
theorem exists_pairs {text : List Byte} (count : ℕ) (length : text.length = 2 * count)
    (digits : ∀ byte ∈ text, IsHexDigit byte) : ∃ bytes, pairs text = .ok bytes ∧ hex bytes = text.map toLower := by
  induction count generalizing text with
  | zero =>
    rw [List.length_eq_zero_iff.mp length]
    exact ⟨[], rfl, rfl⟩
  | succ count ih =>
    match text, length, digits with
    | high :: low :: rest, length, digits =>
      simp only [List.forall_mem_cons] at digits
      obtain ⟨upper, isUpper, upperDigit⟩ := exists_nibble high digits.1
      obtain ⟨lower, isLower, lowerDigit⟩ := exists_nibble low digits.2.1
      obtain ⟨bytes, read, shown⟩ := ih (by simpa [Nat.mul_succ] using length) digits.2.2
      obtain ⟨front, back⟩ := halves upper lower
      refine ⟨(upper.setWidth 8 <<< 4 ||| lower.setWidth 8) :: bytes, ?_, ?_⟩
      · simp only [pairs, isUpper, isLower, read, bind, Except.bind, pure, Except.pure]
      · rw [hex, List.flatMap_cons, ← hex, front, back, upperDigit, lowerDigit, shown]
        rfl

theorem digits_of_pairs {text : List Byte} (count : ℕ) (length : text.length = 2 * count) {bytes : List Byte}
    (read : pairs text = .ok bytes) : ∀ byte ∈ text, IsHexDigit byte := by
  induction count generalizing text bytes with
  | zero =>
    rw [List.length_eq_zero_iff.mp length]
    nofun
  | succ count ih =>
    match text, length, read with
    | high :: low :: rest, length, read =>
      simp only [pairs, bind, Except.bind] at read
      rcases first : nibble high with _ | upper
      · simp [first] at read
      rcases second : nibble low with _ | lower
      · simp [first, second] at read
      rcases others : pairs rest with _ | bytes'
      · simp [first, second, others] at read
      have isHigh : IsHexDigit high := by
        by_contra other
        exact not_isHexDigit_nibble high other upper first
      have isLow : IsHexDigit low := by
        by_contra other
        exact not_isHexDigit_nibble low other lower second
      simp only [List.forall_mem_cons]
      exact ⟨isHigh, isLow, ih (by simpa [Nat.mul_succ] using length) others⟩

theorem fromHex_eq_ok_iff (text digest : List Byte) : fromHex text = .ok digest ↔
    text.length = 64 ∧ (∀ byte ∈ text, IsHexDigit byte) ∧ hex digest = text.map toLower := by
  rw [fromHex]
  split_ifs with width
  · simp only [false_iff, not_and]
    exact fun length => absurd length width
  have length : text.length = 2 * 32 := not_not.mp width
  constructor
  · intro read
    have digits := digits_of_pairs 32 length read
    obtain ⟨bytes, read', shown⟩ := exists_pairs 32 length digits
    obtain rfl : bytes = digest := Except.ok.inj (read'.symm.trans read)
    exact ⟨length, digits, shown⟩
  · rintro ⟨-, digits, shown⟩
    obtain ⟨bytes, read, shown'⟩ := exists_pairs 32 length digits
    rw [read, hex_injective (shown'.trans shown.symm)]

/-- Upper case digits are accepted as well, though no digest is written with them. -/
theorem fromHex_upper_case : ∃ text digest, fromHex text = .ok digest ∧ ∀ digest', hex digest' ≠ text := by
  refine ⟨List.replicate 64 65, List.replicate 32 0xaa, by decide, fun digest written => ?_⟩
  cases digest with
  | nil => cases written
  | cons byte digest =>
    have first : hexDigit (byte >>> 4) = 65 := List.head_eq_of_cons_eq written
    have never : ∀ byte : Byte, hexDigit (byte >>> 4) ≠ 65 := by decide
    exact never byte first

/-- However a message shorter than 2⁶¹ bytes is cut into updates, the digest is that of the standard. A digest is read back
from what is written of it, and a text is read if and only if it is sixty-four hexadecimal digits, of either case, that are
the digest in lower case. -/
theorem digest_standard (pieces : List (List Byte)) (text digest : List Byte) :
    (pieces.flatten.length < 2 ^ 61 →
      byteBits (pieces.foldl Sha256.update .new).finish = sha256 (byteBits pieces.flatten)) ∧
      (digest.length = 32 → fromHex (hex digest) = .ok digest) ∧
      (fromHex text = .ok digest ↔
        text.length = 64 ∧ (∀ byte ∈ text, IsHexDigit byte) ∧ hex digest = text.map toLower) := by
  refine ⟨Sha256.finish_updates pieces, fun length => ?_, fromHex_eq_ok_iff text digest⟩
  rw [fromHex, if_neg (by rw [length_hex, length]; decide), pairs_hex]

example : (Sha256.new.update [0x61, 0x62, 0x63]).finish.take 4 = [0xba, 0x78, 0x16, 0xbf] := by decide +kernel

end Hex

end HellRs.Digest
