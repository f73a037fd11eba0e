import Mathlib

/-! # Trimmed and cut lists

A list without the elements of a kind at its two ends, and a text cut at its first separator.
-/

namespace HellRs

/-- `char::is_whitespace`. -/
def isWhitespace (character : Char) : Bool :=
  let code := character.toNat
  (9 ≤ code && code ≤ 13) || code = 0x20 || code = 0x85 || code = 0xA0 || code = 0x1680 || (0x2000 ≤ code && code ≤ 0x200A) ||
    code = 0x2028 || code = 0x2029 || code = 0x202F || code = 0x205F || code = 0x3000

variable {α : Type} {blank : α → Bool}

def trim (blank : α → Bool) (items : List α) : List α := (items.dropWhile blank).rdropWhile blank

theorem trim_split (blank : α → Bool) (items : List α) : ∃ before after, items = before ++ (trim blank items ++ after) ∧
    (∀ item ∈ before, blank item = true) ∧ ∀ item ∈ after, blank item = true := by
  refine ⟨items.takeWhile blank, (items.dropWhile blank).rtakeWhile blank, ?_, fun _ => List.mem_takeWhile_imp, fun _ =>
    List.mem_rtakeWhile_imp⟩
  rw [trim, List.rdropWhile_append_rtakeWhile, List.takeWhile_append_dropWhile]

/-- Copies of an item are cut off from the end. -/
theorem exists_rdropWhile_replicate [DecidableEq α] (item : α) (items : List α) :
    ∃ count, items = items.rdropWhile (· = item) ++ List.replicate count item := by
  have copies : items.rtakeWhile (· = item) = List.replicate (items.rtakeWhile (· = item)).length item :=
    List.eq_replicate_of_mem fun _ member => by simpa using List.mem_rtakeWhile_imp member
  exact ⟨_, by rw [← copies, List.rdropWhile_append_rtakeWhile]⟩

/-- What is neither blank at its begin nor at its end is found between blanks. -/
theorem trim_eq {before body after : List α} (beforeBlank : ∀ item ∈ before, blank item = true)
    (afterBlank : ∀ item ∈ after, blank item = true) (nonempty : body ≠ []) (first : blank (body.head nonempty) = false)
    (last : blank (body.getLast nonempty) = false) : trim blank (before ++ (body ++ after)) = body := by
  have kept : (body ++ after).dropWhile blank = body ++ after := by
    cases body with
    | nil => exact absurd rfl nonempty
    | cons item body => exact List.dropWhile_cons_of_neg (by simpa using first)
  rw [trim, List.dropWhile_append_of_pos beforeBlank, kept, List.rdropWhile, List.reverse_append,
    List.dropWhile_append_of_pos (by simpa using afterBlank), ← List.rdropWhile, List.rdropWhile_eq_self_iff]
  intro _
  rw [last]
  exact Bool.false_ne_true

theorem trim_of_blank {items : List α} (all : ∀ item ∈ items, blank item = true) : trim blank items = [] := by
  rw [trim, List.dropWhile_eq_nil_iff.mpr all]
  rfl

/-- What is left begins and ends with something that is not blank. -/
theorem trim_ends (blank : α → Bool) (items : List α) :
    (∀ first ∈ (trim blank items).head?, blank first = false) ∧ ∀ last ∈ (trim blank items).getLast?, blank last = false := by
  constructor
  · intro first here
    obtain ⟨rest, whole⟩ : trim blank items <+: items.dropWhile blank := List.rdropWhile_prefix ..
    have same : (items.dropWhile blank).head? = some first := by
      rw [← whole, List.head?_append, here]
      rfl
    simpa [same] using List.head?_dropWhile_not blank items
  · intro last here
    have nonempty : trim blank items ≠ [] := by
      rintro empty
      rw [empty] at here
      cases here
    rw [List.getLast?_eq_some_getLast nonempty] at here
    have notBlank := List.rdropWhile_last_not blank (items.dropWhile blank) nonempty
    rw [← Option.some.inj here]
    exact Bool.eq_false_iff.mpr notBlank

/-- `str::split_once`. -/
def splitOnce (separator : Char) (text : List Char) : Option (List Char × List Char) :=
  if separator ∈ text then some (text.takeWhile (· ≠ separator), (text.dropWhile (· ≠ separator)).tail) else none

theorem splitOnce_eq_some_iff {separator : Char} {text before after : List Char} :
    splitOnce separator text = some (before, after) ↔ text = before ++ separator :: after ∧ separator ∉ before := by
  unfold splitOnce
  constructor
  · intro split
    split at split
    next there =>
      obtain ⟨rfl, rfl⟩ := Prod.mk.inj (Option.some.inj split)
      refine ⟨?_, fun inside => by simpa using List.mem_takeWhile_imp inside⟩
      cases rest : text.dropWhile (· ≠ separator) with
      | nil =>
        rw [List.dropWhile_eq_nil_iff] at rest
        simpa using rest _ there
      | cons first rest' =>
        have isSeparator : first = separator := by
          have := List.head?_dropWhile_not (· ≠ separator) text
          rw [rest] at this
          simpa using this
        rw [List.tail_cons, ← isSeparator, ← rest, isSeparator, List.takeWhile_append_dropWhile]
    next => cases split
  · rintro ⟨rfl, outside⟩
    have passes : ∀ character ∈ before, decide (character ≠ separator) = true := fun character inside =>
      decide_eq_true fun same => outside (same ▸ inside)
    rw [if_pos (by simp), List.takeWhile_append_of_pos passes, List.dropWhile_append_of_pos passes]
    simp

theorem splitOnce_eq_none_iff {separator : Char} {text : List Char} : splitOnce separator text = none ↔ separator ∉ text := by
  unfold splitOnce
  split <;> simp_all

end HellRs
