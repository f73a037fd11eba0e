import HellRs.Digest.Standard

/-! # Bounded captures of output

A capture of a stream keeps its length, its digest, both ends, and the whole stream if it is not too long. A reader is the list of
what its reads return; one that is exhausted reads nothing.
-/

namespace HellRs.Testkit

open Digest SecureHash

def COMPLETE_CAPTURE_BYTES : ℕ := 4 * 1024 * 1024

def CAPTURE_EDGE_BYTES : ℕ := 256 * 1024

structure BoundedCapture where
  totalBytes : ℕ
  sha256 : List Byte
  prefixBytes : List Byte
  suffixBytes : List Byte
  complete : Option (List Byte)
  truncated : Bool
deriving DecidableEq

/-- The variables of `read_bounded`. -/
structure Reading where
  digest : Sha256
  complete : List Byte
  prefixBytes : List Byte
  suffixBytes : List Byte
  totalBytes : ℕ

/-- The loop of `pop_front`. -/
def popFront (limit : ℕ) : List Byte → List Byte
  | [] => []
  | byte :: bytes => if limit < (byte :: bytes).length then popFront limit bytes else byte :: bytes

namespace Reading

def new : Reading := ⟨.new, [], [], [], 0⟩

/-- One turn of the loop. -/
def turn (reading : Reading) (bytes : List Byte) : Except String Reading :=
  if 2 ^ 64 ≤ reading.totalBytes + bytes.length then .error "captured byte count overflowed"
  else .ok {
    digest := reading.digest.update bytes
    complete :=
      if reading.complete.length ≤ COMPLETE_CAPTURE_BYTES - bytes.length then reading.complete ++ bytes else []
    prefixBytes := reading.prefixBytes ++ bytes.take (min bytes.length (CAPTURE_EDGE_BYTES - reading.prefixBytes.length))
    suffixBytes := popFront CAPTURE_EDGE_BYTES (reading.suffixBytes ++ bytes)
    totalBytes := reading.totalBytes + bytes.length }

/-- What `read_bounded` makes of its variables behind the loop. -/
def finish (reading : Reading) : BoundedCapture :=
  let truncated := decide (COMPLETE_CAPTURE_BYTES < reading.totalBytes)
  { totalBytes := reading.totalBytes
    sha256 := reading.digest.finish
    prefixBytes := reading.prefixBytes
    suffixBytes := reading.suffixBytes
    complete := if truncated then none else some reading.complete
    truncated }

end Reading

/-- The loop of `read_bounded`. -/
def readTurns : List (Except String (List Byte)) → Reading → Except String BoundedCapture
  | [], reading => .ok reading.finish
  | .error error :: _, _ => .error error
  | .ok bytes :: reads, reading => if bytes = [] then .ok reading.finish else do readTurns reads (← reading.turn bytes)

def readBounded (reads : List (Except String (List Byte))) : Except String BoundedCapture := readTurns reads .new

theorem popFront_eq_drop (limit : ℕ) (bytes : List Byte) : popFront limit bytes = bytes.drop (bytes.length - limit) := by
  induction bytes with
  | nil => rw [popFront, List.drop_nil]
  | cons byte bytes ih =>
    rw [popFront, List.length_cons]
    split
    · rw [ih, show bytes.length + 1 - limit = bytes.length - limit + 1 by omega, List.drop_succ_cons]
    · rw [show bytes.length + 1 - limit = 0 by omega, List.drop_zero]

/-- What the variables hold of the stream that was read in these chunks. -/
structure Reading.Holds (reading : Reading) (chunks : List (List Byte)) : Prop where
  digest : reading.digest = chunks.foldl Sha256.update .new
  total : reading.totalBytes = chunks.flatten.length
  first : reading.prefixBytes = chunks.flatten.take CAPTURE_EDGE_BYTES
  last : reading.suffixBytes = chunks.flatten.drop (chunks.flatten.length - CAPTURE_EDGE_BYTES)
  /-- The buffer is never cleared as long as the stream fits. What it holds later does not matter. -/
  complete : chunks.flatten.length ≤ COMPLETE_CAPTURE_BYTES → reading.complete = chunks.flatten

namespace Reading

variable {reading : Reading} {chunks : List (List Byte)}

theorem holds_new : new.Holds [] := ⟨rfl, rfl, rfl, rfl, fun _ => rfl⟩

theorem Holds.turn (holds : reading.Holds chunks) {chunk : List Byte} (bounded : (chunks ++ [chunk]).flatten.length < 2 ^ 64) :
    ∃ next, reading.turn chunk = .ok next ∧ next.Holds (chunks ++ [chunk]) := by
  have flat : (chunks ++ [chunk]).flatten = chunks.flatten ++ chunk := by simp
  have total : reading.totalBytes + chunk.length = (chunks ++ [chunk]).flatten.length := by
    rw [holds.total, flat, List.length_append]
  rw [Reading.turn, if_neg (by omega)]
  refine ⟨_, rfl, ?_, total, ?_, ?_, ?_⟩
  · rw [List.foldl_append, ← holds.digest]
    rfl
  · dsimp only
    rw [holds.first, flat, List.take_append, List.length_take, List.append_cancel_left_eq, List.take_eq_take_iff]
    omega
  · have short : chunks.flatten.length - CAPTURE_EDGE_BYTES ≤ chunks.flatten.length := Nat.sub_le ..
    have rest : chunks.flatten.length - CAPTURE_EDGE_BYTES + (chunks.flatten.length + chunk.length -
        (chunks.flatten.length - CAPTURE_EDGE_BYTES) - CAPTURE_EDGE_BYTES) =
        chunks.flatten.length + chunk.length - CAPTURE_EDGE_BYTES := by omega
    dsimp only
    rw [popFront_eq_drop, holds.last, flat, ← List.drop_append_of_le_length short, List.drop_drop, List.length_drop, List.length_append,
      rest]
  · intro fits
    rw [flat, List.length_append] at fits
    rw [holds.complete (by omega), if_pos (by omega), flat]

/-- The variables after the chunks, and after more of them. -/
theorem Holds.readTurns (holds : reading.Holds chunks) {more : List (List Byte)} (nonempty : ∀ chunk ∈ more, chunk ≠ [])
    (bounded : (chunks ++ more).flatten.length < 2 ^ 64) (later : List (Except String (List Byte))) :
    ∃ last : Reading, readTurns (more.map .ok ++ .ok [] :: later) reading = .ok last.finish ∧ last.Holds (chunks ++ more) := by
  induction more generalizing reading chunks with
  | nil =>
    rw [List.append_nil]
    exact ⟨reading, rfl, holds⟩
  | cons chunk more ih =>
    obtain ⟨here, rest⟩ := List.forall_mem_cons.mp nonempty
    rw [List.append_cons chunks] at bounded ⊢
    have fits : (chunks ++ [chunk]).flatten.length < 2 ^ 64 := by
      rw [List.flatten_append, List.length_append] at bounded
      omega
    obtain ⟨next, turned, holds⟩ := holds.turn fits
    rw [List.map_cons, List.cons_append, Testkit.readTurns, if_neg here, turned]
    exact ih holds rest bounded

end Reading

/-- However a stream is cut into reads, its capture is the same. -/
theorem readBounded_chunks (chunks : List (List Byte)) (nonempty : ∀ chunk ∈ chunks, chunk ≠ [])
    (bounded : chunks.flatten.length < 2 ^ 61) (later : List (Except String (List Byte))) :
    ∃ capture, readBounded (chunks.map .ok ++ .ok [] :: later) = .ok capture ∧
      capture.totalBytes = chunks.flatten.length ∧
      byteBits capture.sha256 = sha256 (byteBits chunks.flatten) ∧
      capture.prefixBytes = chunks.flatten.take CAPTURE_EDGE_BYTES ∧
      capture.suffixBytes = chunks.flatten.drop (chunks.flatten.length - CAPTURE_EDGE_BYTES) ∧
      (∀ complete, capture.complete = some complete ↔ complete = chunks.flatten ∧ chunks.flatten.length ≤ COMPLETE_CAPTURE_BYTES) ∧
      (capture.truncated = true ↔ COMPLETE_CAPTURE_BYTES < chunks.flatten.length) := by
  have fits : ([] ++ chunks).flatten.length < 2 ^ 64 := by
    rw [List.nil_append]
    omega
  obtain ⟨last, read, holds⟩ := Reading.holds_new.readTurns nonempty fits later
  rw [List.nil_append] at holds
  refine ⟨last.finish, read, holds.total, ?_, holds.first, holds.last, fun complete => ?_, ?_⟩
  · rw [Reading.finish, holds.digest]
    exact Sha256.finish_updates chunks bounded
  · simp only [Reading.finish, holds.total, decide_eq_true_eq]
    split
    next long =>
      refine ⟨nofun, fun ⟨_, short⟩ => ?_⟩
      omega
    next short =>
      rw [holds.complete (by omega), Option.some_inj]
      exact ⟨fun same => ⟨same.symm, by omega⟩, fun same => same.1.symm⟩
  · rw [Reading.finish, holds.total]
    exact decide_eq_true_iff

theorem readBounded_chunks_two :
    ∃ capture, readBounded [.ok [1], .ok [2, 3], .ok []] = .ok capture ∧ capture.totalBytes = 3 ∧ capture.complete = some [1, 2, 3] := by
  obtain ⟨capture, read, total, -, -, -, complete, -⟩ := readBounded_chunks [[1], [2, 3]] (by decide) (by decide) []
  exact ⟨capture, read, total, (complete [1, 2, 3]).mpr (by decide)⟩

end HellRs.Testkit
