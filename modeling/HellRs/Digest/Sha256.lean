import HellRs.Lib.SecureHash

/-! # Streaming SHA-256

The hasher keeps the bytes of a block that is not complete. Arrays are lists, a `&str` is the list of its bytes.
-/

namespace HellRs.Digest

open SecureHash

abbrev Byte := BitVec 8

def INITIAL : List Word :=
  [0x6a09e667, 0xbb67ae85, 0x3c6ef372, 0xa54ff53a, 0x510e527f, 0x9b05688c, 0x1f83d9ab, 0x5be0cd19]

def ROUND : List Word :=
  [0x428a2f98, 0x71374491, 0xb5c0fbcf, 0xe9b5dba5, 0x3956c25b, 0x59f111f1, 0x923f82a4, 0xab1c5ed5,
    0xd807aa98, 0x12835b01, 0x243185be, 0x550c7dc3, 0x72be5d74, 0x80deb1fe, 0x9bdc06a7, 0xc19bf174,
    0xe49b69c1, 0xefbe4786, 0x0fc19dc6, 0x240ca1cc, 0x2de92c6f, 0x4a7484aa, 0x5cb0a9dc, 0x76f988da,
    0x983e5152, 0xa831c66d, 0xb00327c8, 0xbf597fc7, 0xc6e00bf3, 0xd5a79147, 0x06ca6351, 0x14292967,
    0x27b70a85, 0x2e1b2138, 0x4d2c6dfc, 0x53380d13, 0x650a7354, 0x766a0abb, 0x81c2c92e, 0x92722c85,
    0xa2bfe8a1, 0xa81a664b, 0xc24b8b70, 0xc76c51a3, 0xd192e819, 0xd6990624, 0xf40e3585, 0x106aa070,
    0x19a4c116, 0x1e376c08, 0x2748774c, 0x34b0bcb5, 0x391c0cb3, 0x4ed8aa4a, 0x5b9cca4f, 0x682e6ff3,
    0x748f82ee, 0x78a5636f, 0x84c87814, 0x8cc70208, 0x90befffa, 0xa4506ceb, 0xbef9a3f7, 0xc67178f2]

/-- `u32::from_be_bytes`. -/
def fromBeBytes (bytes : List Byte) : Word :=
  BitVec.ofNat 32 (bytes.foldl (fun value byte => 256 * value + byte.toNat) 0)

/-- The words of the block, and room for the others. -/
def load (block : List Byte) : List Word :=
  (List.range 64).map fun index => if index < 16 then fromBeBytes ((block.drop (4 * index)).take 4) else 0

/-- One turn of the loop over the other words. -/
def extend (words : List Word) (index : ℕ) : List Word :=
  let word offset := words.getD (index - offset) 0
  let s0 := (word 15).rotateRight 7 ^^^ (word 15).rotateRight 18 ^^^ word 15 >>> 3
  let s1 := (word 2).rotateRight 17 ^^^ (word 2).rotateRight 19 ^^^ word 2 >>> 10
  words.set index (word 16 + s0 + word 7 + s1)

/-- One turn of the loop over the words and constants. -/
def mix (working : Words) (turn : Word × Word) : Words :=
  let ⟨a, b, c, d, e, f, g, h⟩ := working
  let choice := (e &&& f) ^^^ (~~~e &&& g)
  let majority := (a &&& b) ^^^ (a &&& c) ^^^ (b &&& c)
  let sum0 := a.rotateRight 2 ^^^ a.rotateRight 13 ^^^ a.rotateRight 22
  let sum1 := e.rotateRight 6 ^^^ e.rotateRight 11 ^^^ e.rotateRight 25
  let first := h + sum1 + choice + turn.2 + turn.1
  let second := sum0 + majority
  ⟨first + second, a, b, c, d + first, e, f, g⟩

/-- The array of eight words in its variables. -/
def workingVariables (state : List Word) : Words :=
  ⟨state.getD 0 0, state.getD 1 0, state.getD 2 0, state.getD 3 0, state.getD 4 0, state.getD 5 0, state.getD 6 0,
    state.getD 7 0⟩

def compress (state : List Word) (block : List Byte) : List Word :=
  let words := (List.range' 16 48).foldl extend (load block)
  let mixed := (words.zip ROUND).foldl mix (workingVariables state)
  state.zipWith (· + ·) mixed.toList

structure Sha256 where
  state : List Word
  block : List Byte
  blockLen : ℕ
  totalBytes : ℕ
deriving DecidableEq

namespace Sha256

def new : Sha256 := ⟨INITIAL, List.replicate 64 0, 0, 0⟩

/-- `copy_from_slice` into a part of the block. -/
def copyInto (block : List Byte) (offset : ℕ) (bytes : List Byte) : List Byte :=
  block.take offset ++ bytes ++ block.drop (offset + bytes.length)

/-- The loop over whole blocks. -/
def compressBlocks (state : List Word) (bytes : List Byte) : List Word × List Byte :=
  if 64 ≤ bytes.length then compressBlocks (compress state (bytes.take 64)) (bytes.drop 64) else (state, bytes)
termination_by bytes.length
decreasing_by rw [List.length_drop]; omega

/-- What `update` does when the block is empty. -/
def updateBlocks (hasher : Sha256) (bytes : List Byte) : Sha256 :=
  let (state, rest) := compressBlocks hasher.state bytes
  { hasher with state, block := copyInto hasher.block 0 rest, blockLen := rest.length }

def update (hasher : Sha256) (bytes : List Byte) : Sha256 :=
  let hasher := { hasher with totalBytes := min (hasher.totalBytes + bytes.length) (2 ^ 64 - 1) }
  if hasher.blockLen = 0 then hasher.updateBlocks bytes
  else
    let copy := min (64 - hasher.blockLen) bytes.length
    let block := copyInto hasher.block hasher.blockLen (bytes.take copy)
    let blockLen := hasher.blockLen + copy
    if blockLen = 64 then
      updateBlocks { hasher with state := compress hasher.state block, block, blockLen := 0 } (bytes.drop copy)
    else { hasher with block, blockLen }

def finish (hasher : Sha256) : List Byte :=
  let bitLen := hasher.totalBytes * 8 % 2 ^ 64
  let block := copyInto hasher.block hasher.blockLen [0x80]
  let blockLen := hasher.blockLen + 1
  let zeros := copyInto block blockLen (List.replicate (64 - blockLen) 0)
  let (state, block) :=
    if 64 - 8 < blockLen then (compress hasher.state zeros, List.replicate 64 0) else (hasher.state, zeros)
  let state := compress state (copyInto block (64 - 8) (bytesOf 8 bitLen))
  state.flatMap fun word => bytesOf 4 word.toNat

end Sha256

section Hex

/-- `nibble`. -/
def nibble (byte : Byte) : Except String Byte :=
  if 48 ≤ byte ∧ byte ≤ 57 then .ok (byte - 48)
  else if 97 ≤ byte ∧ byte ≤ 102 then .ok (byte - 97 + 10)
  else if 65 ≤ byte ∧ byte ≤ 70 then .ok (byte - 65 + 10)
  else .error "SHA-256 contains a non-hexadecimal digit"

/-- The loop over the pairs of digits. -/
def pairs : List Byte → Except String (List Byte)
  | high :: low :: rest => do
    let high ← nibble high
    let low ← nibble low
    let bytes ← pairs rest
    return (high <<< 4 ||| low) :: bytes
  | _ => return []

def fromHex (text : List Byte) : Except String (List Byte) :=
  if text.length ≠ 32 * 2 then .error "SHA-256 has the wrong hexadecimal width" else pairs text

/-- A digit of `HEX`. -/
def hexDigit (value : Byte) : Byte := if value < 10 then 48 + value else 97 + (value - 10)

def hex (digest : List Byte) : List Byte :=
  digest.flatMap fun (byte : Byte) => [hexDigit (byte >>> 4), hexDigit (byte &&& 0x0f)]

end Hex

end HellRs.Digest
