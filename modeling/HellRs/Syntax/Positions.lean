import Mathlib
import HellRs.Syntax.Lexer

/-! # Lines and columns

`SourceFile::line_column` looks the line of an offset up in the table of line starts. The place behind a number of characters is on
the line after their line breaks, in the column behind what they leave on their last line.
-/

namespace HellRs.Syntax

namespace SourceFile

/-- The loop of `SourceMap::add_bytes` over the bytes. -/
def lineStartsFrom : ℕ → List Char → List ℕ
  | _, [] => []
  | offset, character :: rest =>
      (if character = '\n' then [offset + 1] else []) ++ lineStartsFrom (offset + character.utf8Size) rest

def lineStarts (source : SourceFile) : List ℕ := 0 :: lineStartsFrom 0 source.text

end SourceFile

/-- The characters before a byte offset and behind it, when it is a boundary of characters. -/
def splitBytes : ℕ → List Char → Option (List Char × List Char)
  | offset, [] => if offset = 0 then some ([], []) else none
  | offset, character :: rest =>
      if offset = 0 then some ([], character :: rest)
      else if character.utf8Size ≤ offset then
        (splitBytes (offset - character.utf8Size) rest).map fun (before, behind) => (character :: before, behind)
      else none

/-- `line_column`. Both results of the binary search in the increasing line starts come to the last start that is not behind the
offset. -/
def SourceFile.lineColumn (source : SourceFile) (offset : ℕ) : Option (ℕ × ℕ) := do
  let offset := min offset (utf8Length source.text)
  let (before, _) ← splitBytes offset source.text
  let lineIndex := (source.lineStarts.filter (· ≤ offset)).length - 1
  let (_, line) ← splitBytes (source.lineStarts.getD lineIndex 0) before
  if lineIndex < spanLimit then some (lineIndex + 1, line.foldl nextColumn 1) else none

/-! ## The place behind some characters -/

/-- What the characters leave on their last line. -/
def lastLine (before : List Char) : List Char := before.rtakeWhile (· ≠ '\n')

@[simp] theorem lastLine_nil : lastLine [] = [] := rfl

theorem lastLine_append (before : List Char) {more : List Char} (plain : '\n' ∉ more) : lastLine (before ++ more) = lastLine before ++ more := by
  have passes : ∀ character ∈ more.reverse, decide (character ≠ '\n') = true := fun character member =>
    decide_eq_true fun same => plain (same ▸ List.mem_reverse.mp member)
  rw [lastLine, List.rtakeWhile, List.reverse_append, List.takeWhile_append_of_pos passes, List.reverse_append, List.reverse_reverse]
  rfl

@[simp] theorem lastLine_newline (before : List Char) : lastLine (before ++ ['\n']) = [] := by simp [lastLine]

theorem utf8Length_append (before more : List Char) : utf8Length (before ++ more) = utf8Length before + utf8Length more := by
  simp only [utf8Length, List.map_append, List.sum_append]

@[simp] theorem utf8Length_cons (character : Char) (rest : List Char) : utf8Length (character :: rest) = character.utf8Size + utf8Length rest := by
  simp only [utf8Length, List.map_cons, List.sum_cons]

theorem length_le_utf8Length (text : List Char) : text.length ≤ utf8Length text := by
  induction text with
  | nil => rfl
  | cons character text ih =>
    have := character.utf8Size_pos
    rw [List.length_cons, utf8Length_cons]
    omega

theorem splitBytes_append (before rest : List Char) : splitBytes (utf8Length before) (before ++ rest) = some (before, rest) := by
  induction before with
  | nil => cases rest <;> rfl
  | cons character before ih =>
    have positive := character.utf8Size_pos
    rw [List.cons_append, splitBytes, utf8Length_cons, if_neg (by omega), if_pos (by omega), Nat.add_sub_cancel_left, ih]
    rfl

namespace SourceFile

theorem lineStartsFrom_append (offset : ℕ) (before rest : List Char) :
    lineStartsFrom offset (before ++ rest) = lineStartsFrom offset before ++ lineStartsFrom (offset + utf8Length before) rest := by
  induction before generalizing offset with
  | nil => rfl
  | cons character before ih =>
    rw [List.cons_append, lineStartsFrom, lineStartsFrom, ih, utf8Length_cons, Nat.add_assoc, List.append_assoc]

theorem length_lineStartsFrom (offset : ℕ) (text : List Char) : (lineStartsFrom offset text).length = text.count '\n' := by
  induction text generalizing offset with
  | nil => rfl
  | cons character text ih =>
    rw [lineStartsFrom, List.length_append, ih, List.count_cons]
    by_cases isBreak : character = '\n' <;> simp [isBreak, Nat.add_comm]

theorem lineStartsFrom_bounds {offset : ℕ} {text : List Char} : ∀ start ∈ lineStartsFrom offset text, offset < start ∧ start ≤ offset + utf8Length text := by
  induction text generalizing offset with
  | nil => exact nofun
  | cons character text ih =>
    intro start member
    rw [utf8Length_cons]
    rw [lineStartsFrom, List.mem_append] at member
    rcases member with here | later
    · have positive := character.utf8Size_pos
      split at here
      next => rw [List.mem_singleton.mp here]; omega
      next => cases here
    · have := ih start later
      omega

/-- The last line start before a place is where its line begins. -/
theorem getD_lineStarts (before : List Char) : ∃ front, before = front ++ lastLine before ∧
    (0 :: lineStartsFrom 0 before).getD (before.count '\n') 0 = utf8Length front := by
  induction before using List.reverseRecOn with
  | nil => exact ⟨[], rfl, rfl⟩
  | append_singleton before last ih =>
    obtain ⟨front, split, start⟩ := ih
    by_cases isBreak : last = '\n'
    · subst isBreak
      refine ⟨before ++ ['\n'], by rw [lastLine_newline, List.append_nil], ?_⟩
      rw [lineStartsFrom_append, List.count_append, ← length_lineStartsFrom 0 before, utf8Length_append]
      have size : '\n'.utf8Size = 1 := rfl
      simp [lineStartsFrom, utf8Length, size]
    · have plain : '\n' ∉ [last] := by simpa [eq_comm] using isBreak
      refine ⟨front, by rw [lastLine_append before plain, ← List.append_assoc, ← split], ?_⟩
      rw [lineStartsFrom_append, List.count_append, List.count_eq_zero.mpr plain]
      simpa [lineStartsFrom, isBreak] using start

/-- The line and the column behind some characters of the text. -/
theorem lineColumn_eq {source : SourceFile} {before rest : List Char} (split : source.text = before ++ rest)
    (short : utf8Length source.text < spanLimit) :
    source.lineColumn (utf8Length before) = some (before.count '\n' + 1, (lastLine before).foldl nextColumn 1) := by
  have whole : utf8Length source.text = utf8Length before + utf8Length rest := by rw [split, utf8Length_append]
  have starts : source.lineStarts.filter (· ≤ utf8Length before) = 0 :: lineStartsFrom 0 before := by
    have kept : ∀ start ∈ lineStartsFrom 0 before, decide (start ≤ utf8Length before) = true := fun start member => by
      have := lineStartsFrom_bounds start member
      exact decide_eq_true (by omega)
    have dropped : (lineStartsFrom (utf8Length before) rest).filter (· ≤ utf8Length before) = [] := by
      rw [List.filter_eq_nil_iff]
      intro start member
      have := lineStartsFrom_bounds start member
      simp only [decide_eq_true_eq]
      omega
    rw [lineStarts, split, lineStartsFrom_append, List.filter_cons_of_pos (by simp), List.filter_append, List.filter_eq_self.mpr kept,
      Nat.zero_add, dropped, List.append_nil]
  have breaks : before.count '\n' ≤ utf8Length before := List.count_le_length.trans (length_le_utf8Length before)
  obtain ⟨front, isFront, start⟩ := getD_lineStarts before
  have found : source.lineStarts.getD (before.count '\n') 0 = utf8Length front := by
    rw [← start, lineStarts, split, lineStartsFrom_append, ← List.cons_append, List.getD_append]
    rw [List.length_cons, length_lineStartsFrom]
    omega
  have cut := splitBytes_append front (lastLine before)
  rw [← isFront] at cut
  unfold lineColumn
  dsimp only
  rw [Nat.min_eq_left (by omega), starts, List.length_cons, length_lineStartsFrom, Nat.add_sub_cancel, found, split, splitBytes_append]
  simp only [Option.bind_eq_bind, Option.bind_some, cut]
  rw [if_pos (by omega)]

end SourceFile

end HellRs.Syntax
