import Mathlib

/-! # Replacing in lists

All occurrences of a list in another are replaced, from the left and without overlaps. A text is also a list of lines, each with the item
that ends it.
-/

namespace HellRs.Replacing

variable {α : Type*} [DecidableEq α]

/-- What follows a prefix. -/
def stripPrefix (found input : List α) : Option (List α) := if found <+: input then some (input.drop found.length) else none

theorem stripPrefix_eq_some_iff {found input rest : List α} : stripPrefix found input = some rest ↔ input = found ++ rest := by
  rw [stripPrefix]
  constructor
  · intro stripped
    split_ifs at stripped with isPrefix
    obtain ⟨more, rfl⟩ := isPrefix
    rw [List.drop_left, Option.some.injEq] at stripped
    rw [stripped]
  · rintro rfl
    rw [if_pos (List.prefix_append found rest), List.drop_left]

/-! ## Replacing -/

/-- As many items are skipped first as the first argument says: those of an occurrence that is replaced. -/
def replaceFrom (found put : List α) : ℕ → List α → List α
  | _, [] => []
  | 0, item :: rest => if found <+: item :: rest then put ++ replaceFrom found put (found.length - 1) rest else item :: replaceFrom found put 0 rest
  | skip + 1, _ :: rest => replaceFrom found put skip rest

def replaceAll (input found put : List α) : List α := if found = [] then input else replaceFrom found put 0 input

section Rules

variable {found put : List α}

theorem replaceFrom_append (skipped rest : List α) : replaceFrom found put skipped.length (skipped ++ rest) = replaceFrom found put 0 rest := by
  induction skipped with
  | nil => rfl
  | cons item skipped ih => exact ih

theorem replaceAll_nil : replaceAll [] found put = [] := by
  rw [replaceAll]
  split_ifs <;> rfl

theorem replaceAll_append (nonempty : found ≠ []) (rest : List α) : replaceAll (found ++ rest) found put = put ++ replaceAll rest found put := by
  rw [replaceAll, replaceAll, if_neg nonempty, if_neg nonempty]
  cases found with
  | nil => exact absurd rfl nonempty
  | cons item found =>
    have isPrefix : item :: found <+: item :: (found ++ rest) := List.prefix_append (item :: found) rest
    rw [List.cons_append, replaceFrom, if_pos isPrefix]
    exact congrArg (put ++ ·) (replaceFrom_append found rest)

theorem replaceAll_cons {item : α} {rest : List α} (other : ¬found <+: item :: rest) :
    replaceAll (item :: rest) found put = item :: replaceAll rest found put := by
  have nonempty : found ≠ [] := fun empty => other (by rw [empty]; exact List.nil_prefix)
  rw [replaceAll, replaceAll, if_neg nonempty, if_neg nonempty, replaceFrom, if_neg other]

/-- An induction for what is replaced: at the end, at an occurrence, and at any other item. -/
theorem replaceAll_induction {motive : List α → Prop} (nonempty : found ≠ []) (nil : motive [])
    (occurrence : ∀ rest, motive rest → motive (found ++ rest))
    (item : ∀ item rest, ¬found <+: item :: rest → motive rest → motive (item :: rest)) (input : List α) : motive input := by
  induction length : input.length using Nat.strong_induction_on generalizing input with
  | _ _ ih =>
    subst length
    cases input with
    | nil => exact nil
    | cons first rest =>
      by_cases isPrefix : found <+: first :: rest
      · obtain ⟨more, split⟩ := isPrefix
        have shorter : more.length < (first :: rest).length := by
          rw [← split, List.length_append]
          have := List.length_pos_of_ne_nil nonempty
          omega
        rw [← split]
        exact occurrence more (ih _ shorter more rfl)
      · exact item first rest isPrefix (ih _ (Nat.lt_succ_self _) rest rfl)

/-- No occurrence begins in the left part. -/
theorem replaceAll_of_none {left right : List α} (none : ∀ before after, left = before ++ after → after ≠ [] → ¬found <+: after ++ right) :
    replaceAll (left ++ right) found put = left ++ replaceAll right found put := by
  induction left with
  | nil => rfl
  | cons item left ih =>
    have other : ¬found <+: item :: (left ++ right) := none [] (item :: left) rfl (List.cons_ne_nil _ _)
    rw [List.cons_append, replaceAll_cons other, ih, List.cons_append]
    rintro before after rfl some_
    exact none (item :: before) after rfl some_

/-- No occurrence begins in the left part and ends in the right one. -/
theorem replaceAll_apart (nonempty : found ≠ []) {left right : List α}
    (apart : ∀ before after, left = before ++ after → after ≠ [] → found <+: after ++ right → found <+: after) :
    replaceAll (left ++ right) found put = replaceAll left found put ++ replaceAll right found put := by
  induction left using replaceAll_induction nonempty with
  | nil => rw [replaceAll_nil, List.nil_append, List.nil_append]
  | occurrence rest ih =>
    rw [List.append_assoc, replaceAll_append nonempty, replaceAll_append nonempty, ih, List.append_assoc]
    rintro before after rfl some_
    exact apart (found ++ before) after (List.append_assoc ..).symm some_
  | item item rest other ih =>
    have other' : ¬found <+: item :: (rest ++ right) := fun isPrefix => other (apart [] (item :: rest) rfl (List.cons_ne_nil _ _) isPrefix)
    rw [List.cons_append, replaceAll_cons other', replaceAll_cons other, ih, List.cons_append]
    rintro before after rfl some_
    exact apart (item :: before) after rfl some_

/-- A result that does not have what is put in is the input. -/
theorem eq_of_replaceAll (nonempty : found ≠ []) {input : List α} (unchanged : ¬put <:+: replaceAll input found put) :
    replaceAll input found put = input := by
  induction input using replaceAll_induction nonempty with
  | nil => exact replaceAll_nil
  | occurrence rest ih =>
    rw [replaceAll_append nonempty] at unchanged
    exact absurd (List.prefix_append _ _).isInfix unchanged
  | item item rest other ih =>
    rw [replaceAll_cons other] at unchanged ⊢
    rw [ih fun isInfix => unchanged (isInfix.trans (List.suffix_cons _ _).isInfix)]

theorem replaceAll_eq_self {input : List α} (never : ¬found <:+: input) : replaceAll input found put = input := by
  have kept := @replaceAll_of_none _ _ found put input [] ?_
  · rwa [List.append_nil, replaceAll_nil, List.append_nil] at kept
  · rintro before after rfl _ isPrefix
    rw [List.append_nil] at isPrefix
    exact never (isPrefix.isInfix.trans (List.suffix_append _ _).isInfix)

/-- An occurrence never goes on behind an item that it does not have. -/
theorem replaceAll_apart_of_notMem (nonempty : found ≠ []) {item : α} (notMem : item ∉ found) (left right : List α) :
    replaceAll (left ++ item :: right) found put = replaceAll left found put ++ item :: replaceAll right found put := by
  have other : ¬found <+: item :: right := by
    rintro ⟨more, split⟩
    cases found with
    | nil => exact nonempty rfl
    | cons first found =>
      obtain ⟨rfl, -⟩ := List.cons.inj split
      exact notMem (List.mem_cons_self ..)
  rw [replaceAll_apart nonempty, replaceAll_cons other]
  intro before after _ _ isPrefix
  rcases List.prefix_or_prefix_of_prefix isPrefix (List.prefix_append after (item :: right)) with inside | longer
  · exact inside
  · obtain ⟨more, rfl⟩ := longer
    rw [List.prefix_append_right_inj] at isPrefix
    cases more with
    | nil => rw [List.append_nil]
    | cons first more =>
      obtain ⟨rest, split⟩ := isPrefix
      obtain ⟨rfl, -⟩ := List.cons.inj split
      exact absurd (List.mem_append_right _ (List.mem_cons_self ..)) notMem

end Rules

/-! ## Lines -/

/-- The lines of a text, each with the item that ends it. -/
def splitInclusive (final : α) : List α → List (List α)
  | [] => []
  | item :: rest =>
    if item = final then [item] :: splitInclusive final rest
    else
      match splitInclusive final rest with
      | [] => [[item]]
      | line :: lines => (item :: line) :: lines

/-- Lists that are the lines of a text: only the last need not have an end. -/
def AreLines (final : α) : List (List α) → Prop
  | [] => True
  | [line] => (∃ body, final ∉ body ∧ line = body ++ [final]) ∨ line ≠ [] ∧ final ∉ line
  | line :: lines => (∃ body, final ∉ body ∧ line = body ++ [final]) ∧ AreLines final lines

section Lines

variable {final : α}

theorem splitInclusive_body {body : List α} (notFinal : final ∉ body) (rest : List α) :
    splitInclusive final (body ++ final :: rest) = (body ++ [final]) :: splitInclusive final rest := by
  induction body with
  | nil => rw [List.nil_append, splitInclusive, if_pos rfl, List.nil_append]
  | cons item body ih =>
    rw [List.mem_cons, not_or] at notFinal
    rw [List.cons_append, splitInclusive, if_neg (Ne.symm notFinal.1), ih notFinal.2]
    rfl

theorem splitInclusive_last {line : List α} (nonempty : line ≠ []) (notFinal : final ∉ line) : splitInclusive final line = [line] := by
  induction line with
  | nil => exact absurd rfl nonempty
  | cons item line ih =>
    rw [List.mem_cons, not_or] at notFinal
    rw [splitInclusive, if_neg (Ne.symm notFinal.1)]
    cases line with
    | nil => rfl
    | cons next line => rw [ih (List.cons_ne_nil _ _) notFinal.2]

theorem splitInclusive_flatten {lines : List (List α)} (areLines : AreLines final lines) : splitInclusive final lines.flatten = lines := by
  induction lines with
  | nil => rfl
  | cons line lines ih =>
    have ends {body : List α} (notFinal : final ∉ body) (rest : AreLines final lines) :
        splitInclusive final ((body ++ [final]) :: lines).flatten = (body ++ [final]) :: lines := by
      rw [List.flatten_cons, List.append_assoc, List.singleton_append, splitInclusive_body notFinal, ih rest]
    cases lines with
    | nil =>
      rcases areLines with ⟨body, notFinal, rfl⟩ | ⟨nonempty, notFinal⟩
      · exact ends notFinal trivial
      · rw [List.flatten_cons, List.flatten_nil, List.append_nil, splitInclusive_last nonempty notFinal]
    | cons next lines =>
      obtain ⟨⟨body, notFinal, rfl⟩, rest⟩ := areLines
      exact ends notFinal rest

theorem areLines_splitInclusive (final : α) (text : List α) : AreLines final (splitInclusive final text) := by
  induction length : text.length using Nat.strong_induction_on generalizing text with
  | _ _ ih =>
    subst length
    by_cases ends : final ∈ text
    · obtain ⟨body, rest, rfl, notMem⟩ := List.eq_append_cons_of_mem ends
      have shorter : rest.length < (body ++ final :: rest).length := by
        rw [List.length_append, List.length_cons]
        omega
      rw [splitInclusive_body notMem]
      have others := ih _ shorter rest rfl
      cases lines : splitInclusive final rest with
      | nil => exact .inl ⟨body, notMem, rfl⟩
      | cons line lines' =>
        rw [lines] at others
        exact ⟨⟨body, notMem, rfl⟩, others⟩
    · cases text with
      | nil => trivial
      | cons byte text =>
        rw [splitInclusive_last (List.cons_ne_nil _ _) ends]
        exact .inr ⟨List.cons_ne_nil _ _, ends⟩

end Lines

end HellRs.Replacing
