import HellRs.Http.Ingress
import HellRs.Lib.Utf8

/-! # Request targets

The path and the query of a target are split at their separators and percent-decoded afterwards. A target may be encoded in
many ways: each byte that does not have a meaning where it stands may be left as it is or be escaped.
-/

namespace HellRs.Http

open Utf8 (fromUtf8Lossy encode)

/-- `hex`. -/
def hex (byte : UInt8) : Option UInt8 :=
  if 48 ≤ byte ∧ byte ≤ 57 then some (byte - 48)
  else if 97 ≤ byte ∧ byte ≤ 102 then some (byte - 97 + 10)
  else if 65 ≤ byte ∧ byte ≤ 70 then some (byte - 65 + 10)
  else none

def escapeAt (high low : UInt8) : Option UInt8 :=
  match hex high, hex low with
  | some high, some low => some (high * 16 + low)
  | _, _ => none

def percentDecode (plusAsSpace : Bool) : Bytes → Bytes
  | [] => []
  | byte :: input =>
    if byte = 43 ∧ plusAsSpace then 32 :: percentDecode plusAsSpace input
    else if byte = 37 then
      match input with
      | high :: low :: rest =>
        match escapeAt high low with
        | some decoded => decoded :: percentDecode plusAsSpace rest
        | none => byte :: percentDecode plusAsSpace (high :: low :: rest)
      | input => byte :: percentDecode plusAsSpace input
    else byte :: percentDecode plusAsSpace input

/-- What is before the first separator, and what is behind it. -/
def cut (separator : UInt8) (bytes : Bytes) : Bytes × Option Bytes :=
  match bytes.idxOf? separator with
  | none => (bytes, none)
  | some index => (bytes.take index, some (bytes.drop (index + 1)))

abbrev QueryParameter := Bytes × Option Bytes

def parsePath (path : Bytes) : List (List Char) :=
  let path := if path.head? = some 47 then path.tail else path
  if path = [] then [] else (path.splitOn 47).map fun part => fromUtf8Lossy (percentDecode false part)

def parseField (field : Bytes) : QueryParameter :=
  let (key, value) := cut 61 field
  (percentDecode true key, value.map (percentDecode true))

def parseQuery : Option Bytes → List QueryParameter
  | none => []
  | some query => if query = [] then [] else (query.splitOn 38).map parseField

def parseTarget (target : Bytes) : List (List Char) × List QueryParameter :=
  let (path, query) := cut 63 target
  (parsePath path, parseQuery query)

/-- The bytes that `sanitizeRequestHead` takes for the target: between the first two spaces of the first line. -/
def rawTarget (head : Bytes) : Option Bytes :=
  (findLineEnd head).bind fun lineEnd =>
    let line := head.take lineEnd
    (line.idxOf? 32).bind fun methodEnd =>
      ((line.drop (methodEnd + 1)).idxOf? 32).map fun offset => (head.drop (methodEnd + 1)).take offset

/-! ## Encodings -/

/-- An encoding of some bytes, where the bytes of a kind may be left as they are. -/
inductive Encodes (bare : UInt8 → Prop) (plusAsSpace : Bool) : Bytes → Bytes → Prop where
  | nil : Encodes bare plusAsSpace [] []
  | bare {byte : UInt8} {bytes text : Bytes} (kept : bare byte) (rest : Encodes bare plusAsSpace bytes text) :
      Encodes bare plusAsSpace (byte :: bytes) (byte :: text)
  | escape {byte high low : UInt8} {bytes text : Bytes} (escaped : escapeAt high low = some byte)
      (rest : Encodes bare plusAsSpace bytes text) : Encodes bare plusAsSpace (byte :: bytes) (37 :: high :: low :: text)
  | space {bytes text : Bytes} (plus : plusAsSpace = true) (rest : Encodes bare plusAsSpace bytes text) :
      Encodes bare plusAsSpace (32 :: bytes) (43 :: text)

/-- No separator of a path: neither `%`, nor `/`, nor `?`. -/
def bareSegment (byte : UInt8) : Prop := byte ≠ 37 ∧ byte ≠ 47 ∧ byte ≠ 63

/-- Neither `%`, nor `+`, nor `&`. -/
def bareValue (byte : UInt8) : Prop := byte ≠ 37 ∧ byte ≠ 43 ∧ byte ≠ 38

def bareKey (byte : UInt8) : Prop := bareValue byte ∧ byte ≠ 61

inductive EncodesItem : QueryParameter → Bytes → Prop where
  | key {key text : Bytes} (encoded : Encodes bareKey true key text) : EncodesItem (key, none) text
  | pair {key value keyText valueText : Bytes} (encodedKey : Encodes bareKey true key keyText)
      (encodedValue : Encodes bareValue true value valueText) : EncodesItem (key, some value) (keyText ++ 61 :: valueText)

/-- A target for a path and a query. Without items, there may be no query. -/
inductive EncodesTarget (segments : List (List Char)) (items : List QueryParameter) : Bytes → Prop where
  | path {texts : List Bytes} (encoded : List.Forall₂ (fun segment => Encodes bareSegment false (encode segment)) segments texts)
      (absent : items = []) : EncodesTarget segments items (47 :: [47].intercalate texts)
  | query {texts fields : List Bytes}
      (encoded : List.Forall₂ (fun segment => Encodes bareSegment false (encode segment)) segments texts)
      (encodedItems : List.Forall₂ EncodesItem items fields) :
      EncodesTarget segments items (47 :: [47].intercalate texts ++ 63 :: [38].intercalate fields)

/-- What a text decodes to: escapes that are malformed stay. -/
inductive Decodes (plusAsSpace : Bool) : Bytes → Bytes → Prop where
  | nil : Decodes plusAsSpace [] []
  | space {text bytes : Bytes} (plus : plusAsSpace = true) (rest : Decodes plusAsSpace text bytes) :
      Decodes plusAsSpace (43 :: text) (32 :: bytes)
  | escape {byte high low : UInt8} {text bytes : Bytes} (escaped : escapeAt high low = some byte)
      (rest : Decodes plusAsSpace text bytes) : Decodes plusAsSpace (37 :: high :: low :: text) (byte :: bytes)
  | malformed {text bytes : Bytes} (malformed : ∀ high low more, text = high :: low :: more → escapeAt high low = none)
      (rest : Decodes plusAsSpace text bytes) : Decodes plusAsSpace (37 :: text) (37 :: bytes)
  | other {byte : UInt8} {text bytes : Bytes} (notEscape : byte ≠ 37) (notSpace : ¬ (byte = 43 ∧ plusAsSpace = true))
      (rest : Decodes plusAsSpace text bytes) : Decodes plusAsSpace (byte :: text) (byte :: bytes)

/-! ## Decoding -/

section Decoding

variable {plus : Bool}

section Equations

-- Made here once, and not by each proof that rewrites with them.
attribute [local simp] percentDecode escapeAt hex encodeTarget

end Equations

theorem percentDecode_space (plus_ : plus = true) (text : Bytes) : percentDecode plus (43 :: text) = 32 :: percentDecode plus text := by
  rw [percentDecode.eq_def]
  exact if_pos ⟨rfl, plus_⟩

theorem percentDecode_escape {high low byte : UInt8} (escaped : escapeAt high low = some byte) (text : Bytes) :
    percentDecode plus (37 :: high :: low :: text) = byte :: percentDecode plus text := by
  rw [percentDecode.eq_def]
  refine (if_neg (by simp)).trans ((if_pos rfl).trans ?_)
  simp only [escaped]

theorem percentDecode_malformed {text : Bytes}
    (malformed : ∀ high low more, text = high :: low :: more → escapeAt high low = none) :
    percentDecode plus (37 :: text) = 37 :: percentDecode plus text := by
  rw [percentDecode.eq_def]
  refine (if_neg (by simp)).trans ((if_pos rfl).trans ?_)
  match text with
  | [] => rfl
  | [_] => rfl
  | high :: low :: more => simp only [malformed high low more rfl]

theorem percentDecode_other {byte : UInt8} (notEscape : byte ≠ 37) (notSpace : ¬ (byte = 43 ∧ plus = true)) (text : Bytes) :
    percentDecode plus (byte :: text) = byte :: percentDecode plus text := by
  rw [percentDecode.eq_def]
  exact (if_neg notSpace).trans (if_neg notEscape)

theorem Decodes.eq {text bytes : Bytes} (decodes : Decodes plus text bytes) : percentDecode plus text = bytes := by
  induction decodes with
  | nil => rw [percentDecode]
  | space plus_ _ ih => rw [percentDecode_space plus_, ih]
  | escape escaped _ ih => rw [percentDecode_escape escaped, ih]
  | malformed malformed _ ih => rw [percentDecode_malformed malformed, ih]
  | other notEscape notSpace _ ih => rw [percentDecode_other notEscape notSpace, ih]

/-- Each text decodes to something, by the first byte of it. -/
theorem exists_decodes (plus : Bool) : (text : Bytes) → ∃ bytes, Decodes plus text bytes
  | [] => ⟨[], .nil⟩
  | byte :: text => by
    obtain ⟨bytes, rest⟩ := exists_decodes plus text
    by_cases space : byte = 43 ∧ plus = true
    · obtain ⟨rfl, plus_⟩ := space
      exact ⟨_, .space plus_ rest⟩
    by_cases escape : byte = 37
    · subst escape
      match text with
      | [] => exact ⟨_, .malformed (fun _ _ _ same => nomatch same) rest⟩
      | [_] => exact ⟨_, .malformed (fun _ _ _ same => nomatch same) rest⟩
      | high :: low :: more =>
        cases escaped : escapeAt high low with
        | none =>
          refine ⟨_, .malformed (fun _ _ _ same => ?_) rest⟩
          cases same
          exact escaped
        | some byte =>
          obtain ⟨bytes, rest⟩ := exists_decodes plus more
          exact ⟨_, .escape escaped rest⟩
    · exact ⟨_, .other escape space rest⟩
termination_by text => text.length

theorem percentDecode_iff (text bytes : Bytes) : percentDecode plus text = bytes ↔ Decodes plus text bytes := by
  refine ⟨?_, Decodes.eq⟩
  rintro rfl
  obtain ⟨bytes, decodes⟩ := exists_decodes plus text
  rwa [decodes.eq]

variable {bare : UInt8 → Prop} {bytes text : Bytes}

/-- An encoding is decoded. -/
theorem Encodes.decode (kept : ∀ byte, bare byte → byte ≠ 37 ∧ ¬ (byte = 43 ∧ plus = true)) (encodes : Encodes bare plus bytes text) :
    percentDecode plus text = bytes := by
  induction encodes with
  | nil => rw [percentDecode]
  | bare here _ ih => rw [percentDecode_other (kept _ here).1 (kept _ here).2, ih]
  | escape escaped _ ih => rw [percentDecode_escape escaped, ih]
  | space plus_ _ ih => rw [percentDecode_space plus_, ih]

theorem hex_of_escapeAt {high low byte : UInt8} (escaped : escapeAt high low = some byte) : (hex high).isSome ∧ (hex low).isSome := by
  rw [escapeAt] at escaped
  split at escaped
  · rename_i first second
    simp [first, second]
  · cases escaped

/-- A byte with a meaning does not stand in an encoding. -/
theorem Encodes.absent (separator : UInt8) (encodes : Encodes bare plus bytes text) (meant : ¬ bare separator)
    (other : hex separator = none ∧ separator ≠ 37 ∧ separator ≠ 43) : separator ∉ text := by
  induction encodes with
  | nil => exact List.not_mem_nil
  | bare here _ ih =>
    rw [List.mem_cons, not_or]
    exact ⟨fun same => meant (same ▸ here), ih⟩
  | escape escaped _ ih =>
    obtain ⟨high, low⟩ := hex_of_escapeAt escaped
    rw [List.mem_cons, List.mem_cons, List.mem_cons, not_or, not_or, not_or]
    refine ⟨other.2.1, ?_, ?_, ih⟩
    · rintro rfl
      rw [other.1] at high
      cases high
    · rintro rfl
      rw [other.1] at low
      cases low
  | space _ _ ih =>
    rw [List.mem_cons, not_or]
    exact ⟨other.2.2, ih⟩

theorem Encodes.nil_iff (encodes : Encodes bare plus bytes text) : text = [] ↔ bytes = [] := by
  cases encodes <;> simp

end Decoding

/-! ## Splitting -/

section Splitting

theorem cut_absent {separator : UInt8} {bytes : Bytes} (absent : separator ∉ bytes) : cut separator bytes = (bytes, none) := by
  rw [cut, List.idxOf?_eq_none_iff.mpr absent]

theorem idxOf?_append {separator : UInt8} {before : Bytes} (absent : separator ∉ before) (after : Bytes) :
    (before ++ separator :: after).idxOf? separator = some before.length := by
  induction before with
  | nil => simp [List.idxOf?_cons]
  | cons byte before ih =>
    rw [List.mem_cons, not_or] at absent
    rw [List.cons_append, List.idxOf?_cons, if_neg (by simpa using Ne.symm absent.1), ih absent.2]
    rfl

theorem cut_append {separator : UInt8} {before : Bytes} (absent : separator ∉ before) (after : Bytes) :
    cut separator (before ++ separator :: after) = (before, some after) := by
  rw [cut, idxOf?_append absent]
  simp

theorem mem_intercalate {byte separator : UInt8} : (texts : List Bytes) → byte ∈ [separator].intercalate texts →
    byte = separator ∨ ∃ text ∈ texts, byte ∈ text
  | [], member => nomatch member
  | [text], member => .inr ⟨text, List.mem_singleton_self _, by simpa [List.intercalate] using member⟩
  | text :: second :: texts, member => by
    rw [List.intercalate, List.intersperse_cons_cons, List.flatten_cons, List.flatten_cons, List.mem_append, List.mem_append,
      List.mem_singleton] at member
    rcases member with here | here | rest
    · exact .inr ⟨text, List.mem_cons_self, here⟩
    · exact .inl here
    · rcases mem_intercalate (second :: texts) rest with here | ⟨other, inside, here⟩
      · exact .inl here
      · exact .inr ⟨other, List.mem_cons_of_mem _ inside, here⟩

/-- Only a single empty text is joined to nothing, apart from no text at all. -/
theorem intercalate_eq_nil {separator : UInt8} : (texts : List Bytes) → [separator].intercalate texts = [] → texts = [] ∨ texts = [[]]
  | [], _ => .inl rfl
  | [text], empty => .inr (by simpa [List.intercalate] using empty)
  | text :: second :: texts, empty => by
    rw [List.intercalate, List.intersperse_cons_cons, List.flatten_cons, List.flatten_cons] at empty
    simp at empty

end Splitting

/-! ## Targets -/

section Targets

variable {segments : List (List Char)} {items : List QueryParameter} {texts fields : List Bytes}

theorem decode_segment {segment : List Char} {text : Bytes} (encodes : Encodes bareSegment false (encode segment) text) :
    fromUtf8Lossy (percentDecode false text) = segment := by
  rw [encodes.decode fun byte bare => ⟨bare.1, by simp⟩, Utf8.fromUtf8Lossy_encode]

theorem bareValue_decodes {byte : UInt8} (bare : bareValue byte) : byte ≠ 37 ∧ ¬ (byte = 43 ∧ true = true) :=
  ⟨bare.1, fun plus => bare.2.1 plus.1⟩

theorem EncodesItem.parse {item : QueryParameter} {text : Bytes} (encodes : EncodesItem item text) : parseField text = item := by
  cases encodes with
  | key encoded =>
    have absent := encoded.absent 61 (fun bare => bare.2 rfl) (by decide)
    rw [parseField, cut_absent absent]
    simp only [Option.map_none, encoded.decode fun _ bare => bareValue_decodes bare.1]
  | pair encodedKey encodedValue =>
    have absent := encodedKey.absent 61 (fun bare => bare.2 rfl) (by decide)
    rw [parseField, cut_append absent]
    simp only [Option.map_some, encodedKey.decode fun _ bare => bareValue_decodes bare.1,
      encodedValue.decode fun _ bare => bareValue_decodes bare]

theorem EncodesItem.absent {item : QueryParameter} {text : Bytes} (encodes : EncodesItem item text) : 38 ∉ text := by
  cases encodes with
  | key encoded => exact encoded.absent 38 (fun bare => bare.1.2.2 rfl) (by decide)
  | pair encodedKey encodedValue =>
    rw [List.mem_append, List.mem_cons, not_or, not_or]
    exact ⟨encodedKey.absent 38 (fun bare => bare.1.2.2 rfl) (by decide), by decide,
      encodedValue.absent 38 (fun bare => bare.2.2 rfl) (by decide)⟩

/-- Texts without the separator are split where they were joined. -/
theorem split_joined {α : Type} {related : α → Bytes → Prop} {parse : Bytes → α} {separator : UInt8} {parts : List α}
    (each : ∀ part text, related part text → separator ∉ text ∧ parse text = part) (encoded : List.Forall₂ related parts texts)
    (single : ∀ part, parts = [part] → ¬ related part []) :
    (if [separator].intercalate texts = [] then [] else (([separator].intercalate texts).splitOn separator).map parse) = parts := by
  have facts : (∀ text ∈ texts, separator ∉ text) ∧ texts.map parse = parts := by
    clear single
    induction encoded with
    | nil => exact ⟨nofun, rfl⟩
    | cons here _ ih =>
      obtain ⟨absent, same⟩ := each _ _ here
      exact ⟨List.forall_mem_cons.mpr ⟨absent, ih.1⟩, by rw [List.map_cons, same, ih.2]⟩
  by_cases empty : [separator].intercalate texts = []
  · rw [if_pos empty]
    rcases intercalate_eq_nil texts empty with rfl | rfl
    · cases encoded
      rfl
    · obtain ⟨part, rest, here, none, rfl⟩ := List.forall₂_cons_right_iff.mp encoded
      cases none
      exact absurd here (single part rfl)
  · have some_ : texts ≠ [] := by
      rintro rfl
      exact empty rfl
    rw [if_neg empty, List.splitOn_intercalate separator facts.1 some_, facts.2]

theorem parsePath_encoded (encoded : List.Forall₂ (fun segment => Encodes bareSegment false (encode segment)) segments texts)
    (several : segments ≠ [[]]) : parsePath (47 :: [47].intercalate texts) = segments := by
  refine split_joined (fun segment text encodes => ?_) encoded ?_
  · exact ⟨encodes.absent 47 (fun bare => bare.2.1 rfl) (by decide), decode_segment encodes⟩
  · rintro segment rfl encodes
    have empty : encode segment = [] := encodes.nil_iff.mp rfl
    have back := Utf8.fromUtf8Lossy_encode segment
    rw [empty, fromUtf8Lossy] at back
    exact several (by rw [← back])

theorem parseQuery_encoded (encoded : List.Forall₂ EncodesItem items fields) (several : items ≠ [([], none)]) :
    parseQuery (some ([38].intercalate fields)) = items := by
  refine split_joined (fun item text encodes => ⟨encodes.absent, encodes.parse⟩) encoded ?_
  rintro item rfl encodes
  generalize empty : ([] : Bytes) = text at encodes
  cases encodes with
  | key encodedKey =>
    have none := encodedKey.nil_iff.mp empty.symm
    exact several (by rw [none])
  | pair => simp at empty

/-- Encoded segments and items are parsed. -/
theorem parseTarget_encoded {target : Bytes} (encodes : EncodesTarget segments items target) (path : segments ≠ [[]])
    (query : items ≠ [([], none)]) : parseTarget target = (segments, items) := by
  have absent {texts : List Bytes}
      (encoded : List.Forall₂ (fun segment => Encodes bareSegment false (encode segment)) segments texts) :
      63 ∉ 47 :: [47].intercalate texts := by
    intro member
    rcases List.mem_cons.mp member with here | inside
    · exact absurd here (by decide)
    rcases mem_intercalate texts inside with here | ⟨text, among, here⟩
    · exact absurd here (by decide)
    · obtain ⟨index, bound, rfl⟩ := List.getElem_of_mem among
      have matching := encoded.get (by rw [encoded.length_eq]; exact bound) bound
      exact matching.absent 63 (fun bare => bare.2.2 rfl) (by decide) here
  cases encodes with
  | path encoded none =>
    rw [parseTarget, cut_absent (absent encoded), none]
    exact congrArg (·, []) (parsePath_encoded encoded path)
  | query encoded encodedItems =>
    rw [parseTarget, cut_append (absent encoded)]
    exact congrArg₂ Prod.mk (parsePath_encoded encoded path) (parseQuery_encoded encodedItems query)

end Targets

/-! ## Sanitized targets -/

section Sanitized

theorem hex_ascii {byte : UInt8} (digit : (hex byte).isSome) : byte < 128 := by
  rw [hex] at digit
  split at digit
  · rename_i bounds
    exact Nat.lt_of_le_of_lt (UInt8.le_iff_toNat_le.mp bounds.2) (by decide)
  · split at digit
    · rename_i bounds
      exact Nat.lt_of_le_of_lt (UInt8.le_iff_toNat_le.mp bounds.2) (by decide)
    · split at digit
      · rename_i bounds
        exact Nat.lt_of_le_of_lt (UInt8.le_iff_toNat_le.mp bounds.2) (by decide)
      · cases digit

/-- The escape that is written for a byte stands for it. -/
theorem escapeAt_hexDigit (byte : UInt8) : escapeAt (hexDigit (byte >>> 4)) (hexDigit (byte &&& 15)) = some byte := by
  have all : ∀ value < 256, escapeAt (hexDigit (UInt8.ofNat value >>> 4)) (hexDigit (UInt8.ofNat value &&& 15)) =
      some (UInt8.ofNat value) := by decide +kernel
  have this := all byte.toNat byte.toNat_lt
  rwa [UInt8.ofNat_toNat] at this

theorem encodeTarget_ascii {byte : UInt8} (small : byte < 128) (text : Bytes) :
    encodeTarget (byte :: text) = byte :: encodeTarget text := by
  rw [encodeTarget, if_pos small]

theorem encodeTarget_other {byte : UInt8} (large : ¬ byte < 128) (text : Bytes) :
    encodeTarget (byte :: text) = 37 :: hexDigit (byte >>> 4) :: hexDigit (byte &&& 15) :: encodeTarget text := by
  rw [encodeTarget, if_neg large]

theorem escapeAt_eq_none_of_high {high low : UInt8} (none : hex high = none) : escapeAt high low = .none := by
  rw [escapeAt, none]

theorem escapeAt_eq_none_of_low {high low : UInt8} (none : hex low = none) : escapeAt high low = .none := by
  rw [escapeAt, none]
  cases hex high <;> rfl

/-- What is written for other bytes does not complete an escape that is malformed. -/
theorem malformed_encodeTarget {text : Bytes}
    (malformed : ∀ high low more, text = high :: low :: more → escapeAt high low = none) :
    ∀ high low more, encodeTarget text = high :: low :: more → escapeAt high low = none := by
  intro high low more same
  match text with
  | [] => cases same
  | first :: text =>
    by_cases small : first < 128
    · rw [encodeTarget_ascii small] at same
      obtain ⟨rfl, rest⟩ := List.cons.inj same
      match text with
      | [] => cases rest
      | second :: text =>
        by_cases small' : second < 128
        · rw [encodeTarget_ascii small'] at rest
          obtain ⟨rfl, -⟩ := List.cons.inj rest
          exact malformed _ _ _ rfl
        · rw [encodeTarget_other small'] at rest
          obtain ⟨rfl, -⟩ := List.cons.inj rest
          exact escapeAt_eq_none_of_low (by decide)
    · rw [encodeTarget_other small] at same
      obtain ⟨rfl, -⟩ := List.cons.inj same
      exact escapeAt_eq_none_of_high (by decide)

theorem Decodes.sanitized {plus : Bool} {text bytes : Bytes} (decodes : Decodes plus text bytes) :
    Decodes plus (encodeTarget text) bytes := by
  induction decodes with
  | nil => exact .nil
  | space plus_ _ ih =>
    rw [encodeTarget_ascii (by decide)]
    exact .space plus_ ih
  | escape escaped _ ih =>
    obtain ⟨high, low⟩ := hex_of_escapeAt escaped
    rw [encodeTarget_ascii (by decide), encodeTarget_ascii (hex_ascii high), encodeTarget_ascii (hex_ascii low)]
    exact .escape escaped ih
  | malformed malformed _ ih =>
    rw [encodeTarget_ascii (by decide)]
    exact .malformed (malformed_encodeTarget malformed) ih
  | @other byte text bytes notEscape notSpace _ ih =>
    by_cases small : byte < 128
    · rw [encodeTarget_ascii small]
      exact .other notEscape notSpace ih
    · rw [encodeTarget_other small]
      exact .escape (escapeAt_hexDigit byte) ih

/-- Sanitizing a target does not change what it decodes to. -/
theorem percentDecode_encodeTarget (plus : Bool) (text : Bytes) :
    percentDecode plus (encodeTarget text) = percentDecode plus text :=
  ((percentDecode_iff text _).mp rfl).sanitized.eq

theorem findLineEnd_cons {byte : UInt8} {bytes : Bytes} (other : [cr, lf].isPrefixOf (byte :: bytes) = false) :
    findLineEnd (byte :: bytes) = (findLineEnd bytes).map (· + 1) := by
  rw [findLineEnd, other]
  rfl

theorem findLineEnd_cons_ne {byte : UInt8} (other : byte ≠ cr) (bytes : Bytes) :
    findLineEnd (byte :: bytes) = (findLineEnd bytes).map (· + 1) :=
  findLineEnd_cons (by simp [List.isPrefixOf, Ne.symm other])

theorem findLineEnd_cons_none {byte : UInt8} {bytes : Bytes} (none : findLineEnd (byte :: bytes) = none) :
    [cr, lf].isPrefixOf (byte :: bytes) = false ∧ findLineEnd bytes = .none := by
  cases first : [cr, lf].isPrefixOf (byte :: bytes) with
  | true =>
    rw [findLineEnd, first] at none
    cases none
  | false =>
    rw [findLineEnd_cons first] at none
    exact ⟨rfl, Option.map_eq_none_iff.mp none⟩

/-- A space ends no line. -/
theorem findLineEnd_append (before after : Bytes) : findLineEnd (before ++ 32 :: after) =
    (findLineEnd before).or ((findLineEnd after).map (before.length + 1 + ·)) := by
  induction before with
  | nil =>
    rw [List.nil_append, findLineEnd_cons_ne (by decide)]
    simp [findLineEnd, Nat.add_comm]
  | cons byte before ih =>
    have same : [cr, lf].isPrefixOf (byte :: (before ++ 32 :: after)) = [cr, lf].isPrefixOf (byte :: before) := by
      cases before with
      | nil => simp [List.isPrefixOf, lf]
      | cons => simp [List.isPrefixOf]
    cases first : [cr, lf].isPrefixOf (byte :: before) with
    | true =>
      rw [List.cons_append, findLineEnd, findLineEnd, same, first]
      rfl
    | false =>
      rw [List.cons_append, findLineEnd_cons (same.trans first), findLineEnd_cons first, ih]
      cases findLineEnd before with
      | some => rfl
      | none =>
        simp only [Option.none_or, Option.map_none, Option.map_map, List.length_cons]
        congr 1
        funext index
        simp only [Function.comp_apply]
        omega

theorem hexDigit_ne (byte : UInt8) : (hexDigit (byte >>> 4) ≠ cr ∧ hexDigit (byte >>> 4) ≠ 32) ∧
    hexDigit (byte &&& 15) ≠ cr ∧ hexDigit (byte &&& 15) ≠ 32 := by
  have all : ∀ code < 256, (hexDigit (UInt8.ofNat code >>> 4) ≠ cr ∧ hexDigit (UInt8.ofNat code >>> 4) ≠ 32) ∧
      hexDigit (UInt8.ofNat code &&& 15) ≠ cr ∧ hexDigit (UInt8.ofNat code &&& 15) ≠ 32 := by decide +kernel
  have this := all byte.toNat byte.toNat_lt
  rwa [UInt8.ofNat_toNat] at this

theorem space_encodeTarget {text : Bytes} (noSpace : 32 ∉ text) : 32 ∉ encodeTarget text := by
  induction text with
  | nil => exact noSpace
  | cons byte text ih =>
    rw [List.mem_cons, not_or] at noSpace
    by_cases small : byte < 128
    · rw [encodeTarget_ascii small, List.mem_cons, not_or]
      exact ⟨noSpace.1, ih noSpace.2⟩
    · rw [encodeTarget_other small, List.mem_cons, List.mem_cons, List.mem_cons, not_or, not_or, not_or]
      exact ⟨by decide, (hexDigit_ne byte).1.2.symm, (hexDigit_ne byte).2.2.symm, ih noSpace.2⟩

theorem head_encodeTarget {text : Bytes} (first : (encodeTarget text).head? = some lf) : text.head? = some lf := by
  cases text with
  | nil => cases first
  | cons byte text =>
    by_cases small : byte < 128
    · rw [encodeTarget_ascii small] at first
      exact first
    · rw [encodeTarget_other small] at first
      exact absurd (Option.some.inj first) (by decide)

theorem isPrefixOf_lineEnd (byte : UInt8) (bytes : Bytes) :
    [cr, lf].isPrefixOf (byte :: bytes) = true ↔ byte = cr ∧ bytes.head? = some lf := by
  cases bytes with
  | nil => simp [List.isPrefixOf]
  | cons next bytes =>
    simp only [List.isPrefixOf, Bool.and_true, Bool.and_eq_true, beq_iff_eq, List.head?_cons, Option.some.injEq]
    exact and_congr eq_comm eq_comm

theorem findLineEnd_encodeTarget {text : Bytes} (none : findLineEnd text = none) : findLineEnd (encodeTarget text) = .none := by
  induction text with
  | nil => rfl
  | cons byte text ih =>
    obtain ⟨first, rest⟩ := findLineEnd_cons_none none
    by_cases small : byte < 128
    · have still : [cr, lf].isPrefixOf (byte :: encodeTarget text) = false := by
        rw [← Bool.not_eq_true, isPrefixOf_lineEnd] at first ⊢
        exact fun both => first ⟨both.1, head_encodeTarget both.2⟩
      rw [encodeTarget_ascii small, findLineEnd_cons still, ih rest]
      rfl
    · rw [encodeTarget_other small, findLineEnd_cons_ne (by decide), findLineEnd_cons_ne (hexDigit_ne _).1.1,
        findLineEnd_cons_ne (hexDigit_ne _).2.1, ih rest]
      rfl

theorem findLineEnd_lt {bytes : Bytes} {index : ℕ} (found : findLineEnd bytes = some index) : index < bytes.length := by
  induction bytes generalizing index with
  | nil => cases found
  | cons byte bytes ih =>
    rw [findLineEnd] at found
    split at found
    · cases found
      exact Nat.succ_pos _
    · obtain ⟨before, here, rfl⟩ := Option.map_eq_some_iff.mp found
      exact Nat.succ_lt_succ (ih here)

theorem idxOf?_split {separator : UInt8} {bytes : Bytes} {index : ℕ} (found : bytes.idxOf? separator = some index) :
    ∃ before after, bytes = before ++ separator :: after ∧ separator ∉ before ∧ before.length = index := by
  induction bytes generalizing index with
  | nil => cases found
  | cons byte bytes ih =>
    rw [List.idxOf?_cons] at found
    split at found
    · rename_i same
      cases found
      exact ⟨[], bytes, by rw [eq_of_beq same, List.nil_append], List.not_mem_nil, rfl⟩
    · rename_i other
      obtain ⟨before, here, rfl⟩ := Option.map_eq_some_iff.mp found
      obtain ⟨start, after, rfl, absent, rfl⟩ := ih here
      refine ⟨byte :: start, after, rfl, ?_, rfl⟩
      rw [List.mem_cons, not_or]
      exact ⟨fun same => other (by simp [same]), absent⟩

/-- A head with a target: a method, a space, the target, another space and the rest of the line. -/
structure Parts (head method target after : Bytes) : Prop where
  whole : head = method ++ 32 :: (target ++ 32 :: after)
  noSpace : 32 ∉ method ∧ 32 ∉ target
  oneLine : findLineEnd method = none ∧ findLineEnd target = none
  ends : (findLineEnd after).isSome

variable {head method target after : Bytes}

theorem Parts.found (parts : Parts head method target after) : ∃ lineEnd, findLineEnd head = some lineEnd ∧
    (head.take lineEnd).idxOf? 32 = some method.length ∧
    ((head.take lineEnd).drop (method.length + 1)).idxOf? 32 = some target.length := by
  obtain ⟨rest, ends⟩ := Option.isSome_iff_exists.mp parts.ends
  have line : (method ++ 32 :: (target ++ 32 :: after)).take (method.length + 1 + (target.length + 1 + rest)) =
      method ++ 32 :: (target ++ 32 :: after.take rest) := by
    rw [Nat.add_assoc, List.take_length_add_append, Nat.add_comm 1, List.take_succ_cons, Nat.add_assoc, List.take_length_add_append,
      Nat.add_comm 1, List.take_succ_cons]
  refine ⟨method.length + 1 + (target.length + 1 + rest), ?_, ?_, ?_⟩
  · rw [parts.whole, findLineEnd_append, findLineEnd_append, parts.oneLine.1, parts.oneLine.2, ends]
    rfl
  · rw [parts.whole, line, idxOf?_append parts.noSpace.1]
  · rw [parts.whole, line, List.drop_length_add_append, List.drop_succ_cons, List.drop_zero, idxOf?_append parts.noSpace.2]

theorem Parts.rawTarget (parts : Parts head method target after) : rawTarget head = some target := by
  obtain ⟨lineEnd, found, first, second⟩ := parts.found
  simp only [Http.rawTarget, found, first, second, Option.bind_some, Option.map_some]
  rw [parts.whole, List.drop_length_add_append, List.drop_succ_cons, List.drop_zero, List.take_left]

theorem Parts.sanitized (parts : Parts head method target after) :
    sanitizeRequestHead head = method ++ 32 :: (encodeTarget target ++ 32 :: after) := by
  obtain ⟨lineEnd, found, first, second⟩ := parts.found
  have start : head.take (method.length + 1) = method ++ [32] := by
    rw [parts.whole, List.take_length_add_append, List.take_succ_cons, List.take_zero]
  have middle : (head.drop (method.length + 1)).take target.length = target := by
    rw [parts.whole, List.drop_length_add_append, List.drop_succ_cons, List.drop_zero, List.take_left]
  have tail : head.drop (method.length + 1 + target.length) = 32 :: after := by
    rw [← List.drop_drop, parts.whole, List.drop_length_add_append, List.drop_succ_cons, List.drop_zero, List.drop_left]
  simp only [sanitizeRequestHead, found, first, second, start, middle, tail]
  simp

theorem exists_parts (raw : Http.rawTarget head = some target) : ∃ method after, Parts head method target after := by
  simp only [Http.rawTarget, Option.bind_eq_some_iff, Option.map_eq_some_iff] at raw
  obtain ⟨lineEnd, found, methodEnd, first, offset, second, rfl⟩ := raw
  obtain ⟨method, line, split, noSpace, rfl⟩ := idxOf?_split first
  rw [split, List.drop_length_add_append, List.drop_succ_cons, List.drop_zero] at second
  obtain ⟨target, after, rfl, noSpace', rfl⟩ := idxOf?_split second
  have whole : head = method ++ 32 :: (target ++ 32 :: (after ++ head.drop lineEnd)) := by
    conv_lhs => rw [← List.take_append_drop lineEnd head, split]
    simp
  have long : method.length + (1 + (target.length + (1 + after.length))) ≤ lineEnd := by
    have bound := List.length_take_le lineEnd head
    rw [split] at bound
    simpa [Nat.add_comm, Nat.add_left_comm] using bound
  have ends := found
  rw [whole, findLineEnd_append, findLineEnd_append] at ends
  have middle : (head.drop (method.length + 1)).take target.length = target := by
    rw [whole, List.drop_length_add_append, List.drop_succ_cons, List.drop_zero, List.take_left]
  rw [middle]
  cases first : findLineEnd method with
  | some index =>
    rw [first] at ends
    cases ends
    have inside := findLineEnd_lt first
    omega
  | none =>
    cases second : findLineEnd target with
    | some index =>
      rw [first, second] at ends
      cases ends
      have inside := findLineEnd_lt second
      dsimp only at long
      omega
    | none =>
      rw [first, second, Option.none_or, Option.none_or] at ends
      refine ⟨method, _, whole, ⟨noSpace, noSpace'⟩, ⟨first, second⟩, ?_⟩
      rw [Option.isSome_iff_ne_none]
      rintro none
      rw [none] at ends
      cases ends

/-- The target of a sanitized head is the encoded one. -/
theorem rawTarget_sanitized (raw : Http.rawTarget head = some target) :
    Http.rawTarget (sanitizeRequestHead head) = some (encodeTarget target) := by
  obtain ⟨method, after, parts⟩ := exists_parts raw
  exact Parts.rawTarget ⟨parts.sanitized, ⟨parts.noSpace.1, space_encodeTarget parts.noSpace.2⟩,
    ⟨parts.oneLine.1, findLineEnd_encodeTarget parts.oneLine.2⟩, parts.ends⟩

/-- A head without a target is left as it is. -/
theorem sanitizeRequestHead_of_none (none : rawTarget head = none) : sanitizeRequestHead head = head := by
  rw [sanitizeRequestHead]
  cases found : findLineEnd head with
  | none => rfl
  | some lineEnd =>
    dsimp only
    cases first : (head.take lineEnd).idxOf? 32 with
    | none => rfl
    | some methodEnd =>
      dsimp only
      cases second : ((head.take lineEnd).drop (methodEnd + 1)).idxOf? 32 with
      | none => rfl
      | some offset => simp [rawTarget, found, first, second] at none

end Sanitized

/-! ## All of it -/

theorem exists_encodes (bare : UInt8 → Prop) (plus : Bool) (bytes : Bytes) : ∃ text, Encodes bare plus bytes text := by
  induction bytes with
  | nil => exact ⟨[], .nil⟩
  | cons byte bytes ih =>
    obtain ⟨text, rest⟩ := ih
    exact ⟨_, .escape (escapeAt_hexDigit byte) rest⟩

theorem exists_forall₂ {α β : Type} {related : α → β → Prop} (each : ∀ part, ∃ text, related part text) (parts : List α) :
    ∃ texts, List.Forall₂ related parts texts := by
  induction parts with
  | nil => exact ⟨[], .nil⟩
  | cons part parts ih =>
    obtain ⟨texts, rest⟩ := ih
    obtain ⟨text, here⟩ := each part
    exact ⟨text :: texts, .cons here rest⟩

/-- Every path and query has a target, in which all is escaped. -/
theorem exists_encodesTarget (segments : List (List Char)) (items : List QueryParameter) :
    ∃ target, EncodesTarget segments items target := by
  obtain ⟨texts, encoded⟩ := exists_forall₂ (fun segment => exists_encodes bareSegment false (encode segment)) segments
  have item (item : QueryParameter) : ∃ text, EncodesItem item text := by
    obtain ⟨key, value⟩ := item
    obtain ⟨keyText, encodedKey⟩ := exists_encodes bareKey true key
    cases value with
    | none => exact ⟨keyText, .key encodedKey⟩
    | some value =>
      obtain ⟨valueText, encodedValue⟩ := exists_encodes bareValue true value
      exact ⟨_, .pair encodedKey encodedValue⟩
  obtain ⟨fields, encodedItems⟩ := exists_forall₂ item items
  exact ⟨_, .query encoded encodedItems⟩

/-- Targets are parsed into what they encode, escapes that are malformed stay, and a sanitized target means the same. -/
theorem targets_decode (segments : List (List Char)) (items : List QueryParameter) (plusAsSpace : Bool) (text head : Bytes) :
    (∃ target, EncodesTarget segments items target) ∧
    (∀ target, EncodesTarget segments items target → segments ≠ [[]] → items ≠ [([], none)] →
      parseTarget target = (segments, items)) ∧
    (∀ bytes, Encodes (fun byte => byte ≠ 37 ∧ ¬ (byte = 43 ∧ plusAsSpace = true)) plusAsSpace bytes text →
      percentDecode plusAsSpace text = bytes) ∧
    (∀ bytes, percentDecode plusAsSpace text = bytes ↔ Decodes plusAsSpace text bytes) ∧
    (∀ raw, rawTarget head = some raw → ∃ sanitized, rawTarget (sanitizeRequestHead head) = some sanitized ∧
      percentDecode plusAsSpace sanitized = percentDecode plusAsSpace raw) ∧
    (rawTarget head = none → sanitizeRequestHead head = head) :=
  ⟨exists_encodesTarget segments items,
    fun _ encodes path query => parseTarget_encoded encodes path query,
    fun _ encodes => encodes.decode fun _ kept => kept,
    fun bytes => percentDecode_iff text bytes,
    fun raw here => ⟨encodeTarget raw, rawTarget_sanitized here, percentDecode_encodeTarget plusAsSpace raw⟩,
    sanitizeRequestHead_of_none⟩

/-- A separator within a segment is escaped, and an escape that is cut off at the end stays. -/
example : parseTarget (ascii "/a%2Fb/c?k=%26+%4") = (["a/b".toList, "c".toList], [(ascii "k", some (ascii "& %4"))]) := by
  decide +kernel

end HellRs.Http
