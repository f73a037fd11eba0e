import Mathlib

/-! # The 256-bit hash of the Secure Hash Standard

A message is a string of bits. It is padded to whole blocks of sixteen words, and a block is worked into the hash value
by sixty-four rounds. The constants are the fractional parts of square and cube roots of the first primes.
-/

namespace HellRs.SecureHash

abbrev Word := BitVec 32

section Strings

/-- The lowest bits of a number, the highest of them first. -/
def bitsOf (width value : ℕ) : List Bool := (List.range width).map fun index => value.testBit (width - 1 - index)

/-- The number that a string of bits spells, after those of a number. -/
def spelled (value : ℕ) (bits : List Bool) : ℕ := bits.foldl (fun value bit => 2 * value + bit.toNat) value

def wordOf (bits : List Bool) : Word := BitVec.ofNat 32 (spelled 0 bits)

/-- The number in bytes, the highest first. -/
def bytesOf : ℕ → ℕ → List (BitVec 8)
  | 0, _ => []
  | count + 1, value => bytesOf count (value / 256) ++ [BitVec.ofNat 8 value]

def byteBits (bytes : List (BitVec 8)) : List Bool := bytes.flatMap fun byte => bitsOf 8 byte.toNat

@[simp] theorem length_bitsOf (width value : ℕ) : (bitsOf width value).length = width := by simp [bitsOf]

theorem bitsOf_succ (width value : ℕ) : bitsOf (width + 1) value = bitsOf width (value / 2) ++ [value.testBit 0] := by
  rw [bitsOf, List.range_succ, List.map_append]
  congr 1
  · refine List.map_congr_left fun index inside => ?_
    have inside := List.mem_range.mp inside
    rw [show width + 1 - 1 - index = width - 1 - index + 1 by omega, Nat.testBit_succ]
  · simp

theorem bitsOf_add (high low value : ℕ) : bitsOf (high + low) value = bitsOf high (value / 2 ^ low) ++ bitsOf low value := by
  induction low generalizing value with
  | zero => simp [bitsOf]
  | succ low ih =>
    rw [← Nat.add_assoc, bitsOf_succ, ih, bitsOf_succ, List.append_assoc, Nat.div_div_eq_div_mul, Nat.pow_succ']

theorem bitsOf_mod (width value : ℕ) : bitsOf width (value % 2 ^ width) = bitsOf width value := by
  refine List.map_congr_left fun index inside => ?_
  have inside := List.mem_range.mp inside
  rw [Nat.testBit_mod_two_pow, decide_eq_true (by omega), Bool.true_and]

theorem spelled_append (value : ℕ) (first second : List Bool) :
    spelled value (first ++ second) = spelled (spelled value first) second := List.foldl_append ..

theorem spelled_bitsOf (before width value : ℕ) :
    spelled before (bitsOf width value) = 2 ^ width * before + value % 2 ^ width := by
  induction width generalizing value with
  | zero => simp [bitsOf, spelled, Nat.mod_one]
  | succ width ih =>
    have last : (value.testBit 0).toNat = value % 2 := by
      rw [Nat.testBit_zero]
      rcases Nat.mod_two_eq_zero_or_one value with even | odd
      · simp [even]
      · simp [odd]
    rw [bitsOf_succ, spelled_append, ih]
    simp only [spelled, List.foldl_cons, List.foldl_nil, last]
    rw [Nat.pow_succ', Nat.mod_mul]
    ring

@[simp] theorem byteBits_nil : byteBits [] = [] := rfl

@[simp] theorem byteBits_cons (byte : BitVec 8) (bytes : List (BitVec 8)) :
    byteBits (byte :: bytes) = bitsOf 8 byte.toNat ++ byteBits bytes := List.flatMap_cons

@[simp] theorem byteBits_append (first second : List (BitVec 8)) :
    byteBits (first ++ second) = byteBits first ++ byteBits second := List.flatMap_append

@[simp] theorem length_byteBits (bytes : List (BitVec 8)) : (byteBits bytes).length = 8 * bytes.length := by
  induction bytes with
  | nil => rfl
  | cons byte bytes ih =>
    rw [byteBits_cons, List.length_append, length_bitsOf, ih, List.length_cons]
    omega

theorem drop_byteBits (count : ℕ) (bytes : List (BitVec 8)) :
    (byteBits bytes).drop (8 * count) = byteBits (bytes.drop count) := by
  induction count generalizing bytes with
  | zero => rfl
  | succ count ih =>
    cases bytes with
    | nil => simp
    | cons byte bytes =>
      rw [byteBits_cons, Nat.mul_succ, Nat.add_comm, ← List.drop_drop, List.drop_left' (length_bitsOf ..), ih,
        List.drop_succ_cons]

theorem take_byteBits (count : ℕ) (bytes : List (BitVec 8)) :
    (byteBits bytes).take (8 * count) = byteBits (bytes.take count) := by
  induction count generalizing bytes with
  | zero => rfl
  | succ count ih =>
    cases bytes with
    | nil => simp
    | cons byte bytes =>
      rw [byteBits_cons, Nat.mul_succ, List.take_append, length_bitsOf, Nat.add_sub_cancel, ih, List.take_succ_cons,
        byteBits_cons, List.take_of_length_le (by rw [length_bitsOf]; omega)]

theorem byteBits_bytesOf (count value : ℕ) : byteBits (bytesOf count value) = bitsOf (8 * count) value := by
  induction count generalizing value with
  | zero => rfl
  | succ count ih =>
    rw [bytesOf, byteBits_append, ih, Nat.mul_succ, bitsOf_add, byteBits_cons, byteBits_nil, List.append_nil,
      BitVec.toNat_ofNat, bitsOf_mod]
    rfl

theorem byteBits_replicate_zero (count : ℕ) :
    byteBits (List.replicate count 0) = List.replicate (8 * count) false := by
  induction count with
  | zero => rfl
  | succ count ih =>
    rw [List.replicate_succ, byteBits_cons, ih, Nat.mul_succ, Nat.add_comm, List.replicate_add]
    rfl

end Strings

section Functions

variable (x y z : Word)

def rotr (count : ℕ) : Word := x >>> count ||| x <<< (32 - count)
def ch : Word := (x &&& y) ^^^ (~~~x &&& z)
def maj : Word := (x &&& y) ^^^ (x &&& z) ^^^ (y &&& z)
def bigSigma0 : Word := rotr x 2 ^^^ rotr x 13 ^^^ rotr x 22
def bigSigma1 : Word := rotr x 6 ^^^ rotr x 11 ^^^ rotr x 25
def smallSigma0 : Word := rotr x 7 ^^^ rotr x 18 ^^^ x >>> 3
def smallSigma1 : Word := rotr x 17 ^^^ rotr x 19 ^^^ x >>> 10

end Functions

section Constants

def isPrime (value : ℕ) : Bool := 2 ≤ value && (List.range value).all fun divisor => divisor < 2 || value % divisor != 0

/-- The first sixty-four primes. -/
def primes : List ℕ := (List.range 312).filter isPrime

/-- The largest number whose power is at most a number, found bit by bit from the highest. -/
def root (degree value : ℕ) : ℕ → ℕ → ℕ
  | 0, guess => guess
  | bit + 1, guess => root degree value bit (if (guess + 2 ^ bit) ^ degree ≤ value then guess + 2 ^ bit else guess)

/-- The first thirty-two bits of the fractional part of a root. -/
def rootFraction (degree value : ℕ) : Word := BitVec.ofNat 32 (root degree (value * 2 ^ (32 * degree)) 40 0)

theorem root_spec (degree value bits guess : ℕ) (low : guess ^ degree ≤ value) (high : value < (guess + 2 ^ bits) ^ degree) :
    root degree value bits guess ^ degree ≤ value ∧ value < (root degree value bits guess + 1) ^ degree := by
  induction bits generalizing guess with
  | zero => exact ⟨low, high⟩
  | succ bit ih =>
    unfold root
    split_ifs with fits
    · exact ih _ fits (by rwa [Nat.add_assoc, ← Nat.two_mul, ← Nat.pow_succ'])
    · exact ih _ low (Nat.not_le.mp fits)

/-- The constant of a round. -/
def roundConstant (round : ℕ) : Word := rootFraction 3 (primes.getD round 0)

end Constants

section Hash

/-- The eight words of a hash value, or the working variables of a round. -/
structure Words where
  a : Word
  b : Word
  c : Word
  d : Word
  e : Word
  f : Word
  g : Word
  h : Word
deriving DecidableEq

namespace Words

def toList (words : Words) : List Word :=
  [words.a, words.b, words.c, words.d, words.e, words.f, words.g, words.h]

def add (words others : Words) : Words :=
  ⟨words.a + others.a, words.b + others.b, words.c + others.c, words.d + others.d, words.e + others.e,
    words.f + others.f, words.g + others.g, words.h + others.h⟩

def round (constant word : Word) (words : Words) : Words :=
  let first := words.h + bigSigma1 words.e + ch words.e words.f words.g + constant + word
  let second := bigSigma0 words.a + maj words.a words.b words.c
  ⟨first + second, words.a, words.b, words.c, words.d + first, words.e, words.f, words.g⟩

end Words

def initial : Words :=
  let constant index := rootFraction 2 (primes.getD index 0)
  ⟨constant 0, constant 1, constant 2, constant 3, constant 4, constant 5, constant 6, constant 7⟩

/-- The message schedule of a block. -/
def schedule (block : ℕ → Word) (index : ℕ) : Word :=
  if index < 16 then block index
  else smallSigma1 (schedule block (index - 2)) + schedule block (index - 7) +
    smallSigma0 (schedule block (index - 15)) + schedule block (index - 16)
termination_by index

/-- The sixty-four rounds of a block. -/
def rounds (block : ℕ → Word) (words : Words) : Words :=
  (List.range 64).foldl (fun words index => words.round (roundConstant index) (schedule block index)) words

def hashBlock (hash : Words) (block : ℕ → Word) : Words := (rounds block hash).add hash

/-- A one, the fewest zeros that make whole blocks, and the length. -/
def padding (length : ℕ) : List Bool :=
  true :: List.replicate ((959 - length % 512) % 512) false ++ bitsOf 64 length

/-- A word of a block of a padded message. -/
def blockWord (padded : List Bool) (block index : ℕ) : Word :=
  wordOf ((padded.drop (512 * block + 32 * index)).take 32)

/-- The hash value of a padded message. -/
def hashBlocks (padded : List Bool) (hash : Words) : Words :=
  (List.range (padded.length / 512)).foldl (fun hash block => hashBlock hash (blockWord padded block)) hash

/-- The message digest. -/
def sha256 (message : List Bool) : List Bool :=
  (hashBlocks (message ++ padding message.length) initial).toList.flatMap fun word => bitsOf 32 word.toNat

/-- The schedule depends on the sixteen words of the block only. -/
theorem schedule_congr {block block' : ℕ → Word} (same : ∀ index < 16, block index = block' index) (index : ℕ) :
    schedule block index = schedule block' index := by
  induction index using Nat.strong_induction_on with
  | _ index ih =>
    unfold schedule
    split_ifs with early
    · exact same index early
    · rw [ih _ (by omega), ih _ (by omega), ih _ (by omega), ih _ (by omega)]

theorem hashBlock_congr {block block' : ℕ → Word} (same : ∀ index < 16, block index = block' index) (hash : Words) :
    hashBlock hash block = hashBlock hash block' := by
  rw [hashBlock, hashBlock, rounds, rounds, funext (schedule_congr same)]

theorem hashBlocks_short {padded : List Bool} (short : padded.length < 512) (hash : Words) : hashBlocks padded hash = hash := by
  rw [hashBlocks, Nat.div_eq_of_lt short]
  rfl

/-- The blocks are worked in one after the other. -/
theorem hashBlocks_append {block rest : List Bool} (size : block.length = 512) (hash : Words) :
    hashBlocks (block ++ rest) hash = hashBlocks rest (hashBlock hash (blockWord block 0)) := by
  have others (index word : ℕ) : blockWord (block ++ rest) (index + 1) word = blockWord rest index word := by
    rw [blockWord, blockWord, show 512 * (index + 1) + 32 * word = 512 + (512 * index + 32 * word) by ring,
      ← List.drop_drop, List.drop_left' size]
  have first (word : ℕ) (inside : word < 16) : blockWord (block ++ rest) 0 word = blockWord block 0 word := by
    rw [blockWord, blockWord, List.drop_append_of_le_length (by omega),
      List.take_append_of_le_length (by rw [List.length_drop]; omega)]
  rw [hashBlocks, hashBlocks, List.length_append, size, Nat.add_comm, Nat.add_div_right _ (by decide),
    List.range_succ_eq_map, List.foldl_cons, List.foldl_map, hashBlock_congr first]
  have turns : (fun hash index => hashBlock hash (blockWord (block ++ rest) (Nat.succ index))) =
      fun hash index => hashBlock hash (blockWord rest index) := by
    funext hash index
    exact congrArg (hashBlock hash) (funext (others index))
  rw [turns]

theorem length_padded (length : ℕ) : (length + (padding length).length) % 512 = 0 := by
  simp only [padding, List.length_append, List.length_cons, List.length_replicate, length_bitsOf]
  omega

end Hash

end HellRs.SecureHash
