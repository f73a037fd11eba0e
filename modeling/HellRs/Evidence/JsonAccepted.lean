import HellRs.Evidence.JsonRecord

/-! # Accepted texts

What the parser accepts is the text of a tree, between blanks, and the value of the tree is what it returns. The parser never leaves the
middle of a character behind, so the bytes that are left are those of a text.
-/

namespace HellRs.Evidence

open Utf8 (encode)

/-- From the bytes of the characters on, the scanner takes a text that spells what it returns. -/
def Accepts {ε α : Type} (scanner : Scanner ε α) (chars : Text) (spells : α → Text → Prop) : Prop :=
  ∀ index value cursor, scanner ⟨index, encode chars⟩ = .ok (value, cursor) →
    ∃ text rest, chars = text ++ rest ∧ cursor.rest = encode rest ∧ spells value text

/-! ## Characters in front -/

theorem ofNat_injective {character other : Char} (ascii : character.toNat < 128) (ascii' : other.toNat < 128)
    (same : UInt8.ofNat character.toNat = UInt8.ofNat other.toNat) : character = other := by
  have equal := congrArg UInt8.toNat same
  rw [Utf8.toNat_ofNat (by omega), Utf8.toNat_ofNat (by omega)] at equal
  rw [← Char.ofNat_toNat character, equal, Char.ofNat_toNat]

theorem first_ge {character : Char} {first : UInt8} {bytes : List UInt8} (wide : 128 ≤ character.toNat)
    (spelled : String.utf8EncodeChar character = first :: bytes) : 128 ≤ first.toNat := by
  obtain ⟨first', bytes', spelled', -, high⟩ := utf8EncodeChar_wide wide
  obtain ⟨rfl, -⟩ := List.cons.inj (spelled.symm.trans spelled')
  exact UInt8.le_iff_toNat_le.mp (high first (List.mem_cons_self ..))

/-- A byte of ASCII in front is a character in front. -/
theorem encode_eq_cons {character : Char} {chars : Text} {bytes : List UInt8} (ascii : character.toNat < 128)
    (spelled : encode chars = UInt8.ofNat character.toNat :: bytes) : ∃ rest, chars = character :: rest ∧ bytes = encode rest := by
  cases chars with
  | nil => cases spelled
  | cons first rest =>
    rw [encode_cons] at spelled
    rcases Nat.lt_or_ge first.toNat 128 with ascii' | wide
    · rw [utf8EncodeChar_ascii ascii'] at spelled
      obtain ⟨same, rfl⟩ := List.cons.inj spelled
      exact ⟨rest, by rw [ofNat_injective ascii' ascii same], rfl⟩
    · obtain ⟨byte, more, spelled', -⟩ := utf8EncodeChar_wide wide
      have high := first_ge wide spelled'
      rw [spelled'] at spelled
      obtain ⟨rfl, -⟩ := List.cons.inj spelled
      rw [Utf8.toNat_ofNat (by omega)] at high
      omega

theorem encode_eq_append {word chars : Text} {bytes : List UInt8} (ascii : ∀ character ∈ word, character.toNat < 128)
    (spelled : encode chars = encode word ++ bytes) : ∃ rest, chars = word ++ rest ∧ bytes = encode rest := by
  induction word generalizing chars with
  | nil => exact ⟨chars, rfl, spelled.symm⟩
  | cons character word ih =>
    have first := ascii character (List.mem_cons_self ..)
    rw [encode_cons, utf8EncodeChar_ascii first, List.append_assoc, List.singleton_append] at spelled
    obtain ⟨rest, rfl, same⟩ := encode_eq_cons first spelled
    obtain ⟨rest', rfl, rfl⟩ := ih (fun other member => ascii other (List.mem_cons_of_mem _ member)) same.symm
    exact ⟨rest', rfl, rfl⟩

theorem encode_takeWhile {kind : UInt8 → Bool} (isAscii : ∀ byte, kind byte = true → byte.toNat < 128) (chars : Text) :
    ∃ taken rest, chars = taken ++ rest ∧ (encode chars).takeWhile kind = encode taken ∧ (encode chars).dropWhile kind = encode rest ∧
      ∀ character ∈ taken, character.toNat < 128 ∧ kind (UInt8.ofNat character.toNat) = true := by
  induction chars with
  | nil => exact ⟨[], [], rfl, rfl, rfl, nofun⟩
  | cons character chars ih =>
    rw [encode_cons]
    rcases Nat.lt_or_ge character.toNat 128 with ascii | wide
    · rw [utf8EncodeChar_ascii ascii, List.singleton_append]
      cases isKind : kind (UInt8.ofNat character.toNat) with
      | false =>
        refine ⟨[], character :: chars, rfl, List.takeWhile_cons_of_neg (by simp [isKind]), ?_, nofun⟩
        rw [List.dropWhile_cons_of_neg (by simp [isKind]), encode_cons, utf8EncodeChar_ascii ascii, List.singleton_append]
      | true =>
        obtain ⟨taken, rest, rfl, taken', dropped, areKind⟩ := ih
        refine ⟨character :: taken, rest, rfl, ?_, ?_, List.forall_mem_cons.mpr ⟨⟨ascii, isKind⟩, areKind⟩⟩
        · rw [List.takeWhile_cons_of_pos isKind, taken', encode_cons, utf8EncodeChar_ascii ascii, List.singleton_append]
        · rw [List.dropWhile_cons_of_pos isKind, dropped]
    · obtain ⟨first, bytes, spelled, -⟩ := utf8EncodeChar_wide wide
      have high := first_ge wide spelled
      have notKind : ¬kind first = true := fun isKind => absurd (isAscii first isKind) (by omega)
      rw [spelled, List.cons_append]
      refine ⟨[], character :: chars, rfl, List.takeWhile_cons_of_neg notKind, ?_, nofun⟩
      rw [List.dropWhile_cons_of_neg notKind, encode_cons, spelled, List.cons_append]

/-! ## Rules -/

namespace Accepts

variable {ε α β : Type} {scanner : Scanner ε α} {chars : Text} {spells : α → Text → Prop}

theorem pure {value : α} (spelled : spells value []) : Accepts (pure value : Scanner ε α) chars spells := by
  intro index value' cursor read
  cases read
  exact ⟨[], chars, rfl, rfl, spelled⟩

/-- An error that is made from where the scanner is. -/
theorem throw_at {fails : ℕ → ε} : Accepts (do throw (fails (← get).index) : Scanner ε α) chars spells := fun _ _ _ read => nomatch read

theorem throw (error : ε) : Accepts (throw error : Scanner ε α) chars spells := fun _ _ _ read => nomatch read

theorem bind {next : α → Scanner ε β} {spells' : β → Text → Prop} (first : Accepts scanner chars spells)
    (continues : ∀ value text rest, chars = text ++ rest → spells value text →
      Accepts (next value) rest fun result text' => spells' result (text ++ text')) : Accepts (scanner >>= next) chars spells' := by
  intro index result cursor read
  obtain ⟨value, cursor', isFirst, read⟩ := bind_eq_ok_iff.mp read
  obtain ⟨text, rest, split, left, spelled⟩ := first index value cursor' isFirst
  obtain ⟨index', bytes⟩ := cursor'
  subst left
  obtain ⟨text', rest', rfl, left', spelled'⟩ := continues value text rest split spelled index' result cursor read
  exact ⟨text ++ text', rest', by rw [split, List.append_assoc], left', spelled'⟩

theorem mono {spells' : α → Text → Prop} (accepts : Accepts scanner chars spells)
    (weaker : ∀ value text, spells value text → spells' value text) : Accepts scanner chars spells' := by
  intro index value cursor read
  obtain ⟨text, rest, split, left, spelled⟩ := accepts index value cursor read
  exact ⟨text, rest, split, left, weaker value text spelled⟩

theorem peek {continues : Option UInt8 → Scanner ε α} (accepts : Accepts (continues (encode chars).head?) chars spells) :
    Accepts (Evidence.peek >>= continues) chars spells := fun index value cursor read => accepts index value cursor read

/-- The number of bytes that are left, as fuel. -/
theorem turns {continues : ℕ → Scanner ε α} (accepts : ∀ turns, Accepts (continues turns) chars spells) :
    Accepts (do continues (← get).rest.length) chars spells := fun index value cursor read =>
  accepts (encode chars).length index value cursor read

theorem whitespace : Accepts (Evidence.whitespace : Scanner ε Unit) chars fun _ text => ∃ blank : Blank, text = blank.chars := by
  intro index value cursor read
  have ascii : ∀ byte, isBlank byte = true → byte.toNat < 128 := by
    intro byte blank
    simp only [isBlank, Bool.or_eq_true, beq_iff_eq] at blank
    rcases blank with ((rfl | rfl) | rfl) | rfl <;> decide
  obtain ⟨taken, rest, split, -, dropped, areBlank⟩ := encode_takeWhile ascii chars
  cases read
  refine ⟨taken, rest, split, dropped, ⟨taken, fun character member => ?_⟩, rfl⟩
  obtain ⟨isAscii, blank⟩ := areBlank character member
  simp only [isBlank, Bool.or_eq_true, beq_iff_eq] at blank
  rcases blank with ((same | same) | same) | same
  · rw [ofNat_injective isAscii (by decide : ' '.toNat < 128) same]
    decide
  · rw [ofNat_injective isAscii (by decide : '\n'.toNat < 128) same]
    decide
  · rw [ofNat_injective isAscii (by decide : '\r'.toNat < 128) same]
    decide
  · rw [ofNat_injective isAscii (by decide : '\t'.toNat < 128) same]
    decide

theorem consume {expected : Char} (ascii : expected.toNat < 128) :
    Accepts (Evidence.consume (UInt8.ofNat expected.toNat) : Scanner ε Bool) chars fun consumed text =>
      text = if consumed then [expected] else [] := by
  intro index value cursor read
  cases spelled : encode chars with
  | nil =>
    rw [spelled] at read
    cases read
    exact ⟨[], chars, rfl, spelled.symm, rfl⟩
  | cons byte bytes =>
    rw [spelled, Evidence.consume] at read
    dsimp only at read
    split_ifs at read with same
    · cases read
      subst same
      obtain ⟨rest, rfl, rfl⟩ := encode_eq_cons ascii spelled
      exact ⟨[expected], rest, rfl, rfl, rfl⟩
    · cases read
      exact ⟨[], chars, rfl, spelled.symm, rfl⟩

/-- Either the character is taken, or nothing is. -/
theorem if_consume {expected : Char} {yes no : Scanner ε α} (ascii : expected.toNat < 128)
    (taken : ∀ rest, Accepts yes rest fun value text => spells value (expected :: text)) (other : Accepts no chars spells) :
    Accepts (do if ← Evidence.consume (UInt8.ofNat expected.toNat) then yes else no) chars spells := by
  refine (consume ascii).bind fun consumed text rest split isText => ?_
  subst isText
  cases consumed with
  | true => exact taken rest
  | false =>
    have same : chars = rest := split
    subst same
    exact other

theorem take {fails : UInt8 → ℕ → ε} {expected : Char} (ascii : expected.toNat < 128) :
    Accepts (Evidence.take fails (UInt8.ofNat expected.toNat)) chars fun _ text => text = [expected] := by
  rw [Evidence.take]
  exact if_consume ascii (fun rest => pure rfl) throw_at

theorem keyword {fails : ℕ → ε} {word : Text} (ascii : ∀ character ∈ word, character.toNat < 128) :
    Accepts (Evidence.keyword fails (encode word)) chars fun _ text => text = word := by
  intro index value cursor read
  rw [Evidence.keyword] at read
  dsimp only at read
  split_ifs at read with isWord
  cases read
  have spelled : encode chars = encode word ++ (encode chars).drop (encode word).length := by
    conv => lhs; rw [← List.take_append_drop (encode word).length (encode chars)]
    rw [isWord]
  obtain ⟨rest, rfl, left⟩ := encode_eq_append ascii spelled
  exact ⟨word, rest, rfl, left, rfl⟩

/-- The next byte is a character of ASCII, or the first byte of another character. -/
theorem next {continues : Option UInt8 → Scanner ε α} (none : Accepts (continues none) [] spells)
    (ascii : ∀ character rest, chars = character :: rest → character.toNat < 128 →
      Accepts (continues (some (UInt8.ofNat character.toNat))) rest fun value text => spells value (character :: text))
    (wide : ∀ character rest first bytes index value cursor, chars = character :: rest → 128 ≤ character.toNat →
      String.utf8EncodeChar character = first :: bytes → continues (some first) ⟨index, bytes ++ encode rest⟩ = .ok (value, cursor) →
      ∃ text rest', rest = text ++ rest' ∧ cursor.rest = encode rest' ∧ spells value (character :: text)) :
    Accepts (Evidence.next >>= continues) chars spells := by
  intro index value cursor read
  cases chars with
  | nil => exact none index value cursor read
  | cons character rest =>
    rw [encode_cons] at read
    rcases Nat.lt_or_ge character.toNat 128 with isAscii | isWide
    · rw [utf8EncodeChar_ascii isAscii, List.singleton_append] at read
      obtain ⟨text, rest', rfl, left, spelled⟩ := ascii character rest rfl isAscii (index + 1) value cursor read
      exact ⟨character :: text, rest', rfl, left, spelled⟩
    · obtain ⟨first, bytes, isChar, -⟩ := utf8EncodeChar_wide isWide
      rw [isChar, List.cons_append] at read
      obtain ⟨text, rest', rfl, left, spelled⟩ := wide character rest first bytes (index + 1) value cursor rfl isWide isChar read
      exact ⟨character :: text, rest', rfl, left, spelled⟩

end Accepts

/-! ## Strings -/

section Strings

variable {chars : Text}

theorem hexDigits_accepts (count value : ℕ) : Accepts (JsonParser.hexDigits count value) chars fun result text =>
    ∃ digits : List HexDigit, digits.length = count ∧ text = digits.map HexDigit.char ∧
      result = digits.foldl (fun found digit => found * 16 + digit.value) value := by
  induction count generalizing value chars with
  | zero => exact Accepts.pure ⟨[], rfl, rfl, rfl⟩
  | succ count ih =>
    rw [JsonParser.hexDigits]
    refine Accepts.next (Accepts.throw _) ?_ ?_
    · intro character rest _ ascii
      dsimp only
      cases isHex : JsonParser.hexNibble (UInt8.ofNat character.toNat) with
      | none => exact Accepts.throw _
      | some nibble =>
        refine (ih (value * 16 + nibble)).mono fun result text spelled => ?_
        obtain ⟨digits, length, rfl, rfl⟩ := spelled
        exact ⟨⟨character, nibble, ascii, isHex⟩ :: digits, congrArg Nat.succ length, rfl, rfl⟩
    · intro character rest first bytes index result cursor _ wide spelled read
      have high := first_ge wide spelled
      have notHex : JsonParser.hexNibble first = none := by
        simp only [JsonParser.hexNibble, UInt8.le_iff_toNat_le, UInt8.reduceToNat]
        split_ifs with digit lower upper
        · omega
        · omega
        · omega
        · rfl
      dsimp only at read
      rw [notHex] at read
      cases read

theorem unicodeEscape_accepts : Accepts JsonParser.unicodeEscape chars fun character text =>
    ∃ piece : Piece, '\\' :: 'u' :: text = piece.text ∧ piece.character = character := by
  rw [JsonParser.unicodeEscape]
  refine (hexDigits_accepts 4 0).bind fun value text rest _ spelled => ?_
  obtain ⟨digits, length, rfl, rfl⟩ := spelled
  obtain ⟨first, second, third, fourth, rfl⟩ : ∃ first second third fourth, digits = [first, second, third, fourth] :=
    List.length_eq_four.mp length
  split
  · rename_i character valid
    refine Accepts.pure ⟨.unicode first second third fourth character ?_, rfl, rfl⟩
    rw [← valid]
    simp only [List.foldl_cons, List.foldl_nil, Nat.zero_mul, Nat.zero_add]
  · exact Accepts.throw _

theorem escape_accepts : Accepts JsonParser.escape chars fun character text =>
    ∃ piece : Piece, '\\' :: text = piece.text ∧ piece.character = character := by
  rw [JsonParser.escape]
  refine Accepts.next (Accepts.throw _) ?_ ?_
  · intro letter rest _ ascii
    have letter_eq {other : Char} (ascii' : other.toNat < 128) (same : UInt8.ofNat letter.toNat = UInt8.ofNat other.toNat) :
        letter = other := ofNat_injective ascii ascii' same
    dsimp only
    split_ifs with quote backslash slash backspace formfeed newline return_ tab unicode
    · cases @letter_eq '"' (by decide) quote
      exact Accepts.pure ⟨.short '"' '"' rfl, rfl, rfl⟩
    · cases @letter_eq '\\' (by decide) backslash
      exact Accepts.pure ⟨.short '\\' '\\' rfl, rfl, rfl⟩
    · cases @letter_eq '/' (by decide) slash
      exact Accepts.pure ⟨.short '/' '/' rfl, rfl, rfl⟩
    · cases @letter_eq 'b' (by decide) backspace
      exact Accepts.pure ⟨.short 'b' '\x08' rfl, rfl, rfl⟩
    · cases @letter_eq 'f' (by decide) formfeed
      exact Accepts.pure ⟨.short 'f' '\x0c' rfl, rfl, rfl⟩
    · cases @letter_eq 'n' (by decide) newline
      exact Accepts.pure ⟨.short 'n' '\n' rfl, rfl, rfl⟩
    · cases @letter_eq 'r' (by decide) return_
      exact Accepts.pure ⟨.short 'r' '\r' rfl, rfl, rfl⟩
    · cases @letter_eq 't' (by decide) tab
      exact Accepts.pure ⟨.short 't' '\t' rfl, rfl, rfl⟩
    · cases @letter_eq 'u' (by decide) unicode
      exact unicodeEscape_accepts
    · exact Accepts.throw_at
  · intro character rest first bytes index result cursor _ wide spelled read
    have high := first_ge wide spelled
    have other {byte : UInt8} (low : byte.toNat < 128) : first ≠ byte := fun same => by
      subst same
      omega
    dsimp only at read
    rw [if_neg (other (by decide)), if_neg (other (by decide)), if_neg (other (by decide)), if_neg (other (by decide)),
      if_neg (other (by decide)), if_neg (other (by decide)), if_neg (other (by decide)), if_neg (other (by decide)),
      if_neg (other (by decide))] at read
    cases read

theorem stringLoop_accepts (turns : ℕ) (output : Text) : Accepts (JsonParser.stringLoop turns output) chars fun value text =>
    ∃ pieces : Pieces, text = pieces.raw ++ ['"'] ∧ value = output ++ pieces.decoded := by
  induction turns generalizing output chars with
  | zero => exact Accepts.throw _
  | succ turns ih =>
    have continues (piece : Piece) {chars : Text} : Accepts (JsonParser.stringLoop turns (output ++ [piece.character])) chars
        fun value text => ∃ pieces : Pieces, piece.text ++ text = pieces.raw ++ ['"'] ∧ value = output ++ pieces.decoded := by
      refine (ih (output ++ [piece.character])).mono fun value text spelled => ?_
      obtain ⟨pieces, rfl, rfl⟩ := spelled
      refine ⟨piece :: pieces, ?_, ?_⟩
      · rw [Pieces.raw, Pieces.raw, List.flatMap_cons, List.append_assoc]
      · rw [Pieces.decoded, Pieces.decoded, List.map_cons, List.append_assoc, List.singleton_append]
    rw [JsonParser.stringLoop]
    refine Accepts.next (Accepts.throw _) ?_ ?_
    · intro character rest _ ascii
      dsimp only
      split_ifs with quote escape control isAscii
      · cases ofNat_injective ascii (by decide : '"'.toNat < 128) quote
        exact Accepts.pure ⟨[], rfl, (List.append_nil output).symm⟩
      · cases ofNat_injective ascii (by decide : '\\'.toNat < 128) escape
        refine escape_accepts.bind fun character text rest _ spelled => ?_
        obtain ⟨piece, isPiece, rfl⟩ := spelled
        refine (continues piece).mono fun value text' spelled' => ?_
        rw [← isPiece] at spelled'
        exact spelled'
      · exact Accepts.throw_at
      · have same : Char.ofNat (UInt8.ofNat character.toNat).toNat = character := by
          rw [Utf8.toNat_ofNat (by omega), Char.ofNat_toNat]
        have printable : 0x20 ≤ character.toNat := (byte_le (by omega) (by decide : 0x20 < 256)).mp (UInt8.not_lt.mp control)
        rw [same]
        refine continues (.plain character printable ?_ ?_)
        · rintro rfl
          exact quote rfl
        · rintro rfl
          exact escape rfl
      · refine absurd ?_ isAscii
        rw [UInt8.lt_iff_toNat_lt, Utf8.toNat_ofNat (by omega)]
        exact ascii
    · intro character rest first bytes index result cursor _ wide spelled read
      obtain ⟨first', bytes', spelled', width, -⟩ := utf8EncodeChar_wide wide
      obtain ⟨rfl, rfl⟩ := List.cons.inj (spelled.symm.trans spelled')
      have high := first_ge wide spelled
      have other {byte : UInt8} (low : byte.toNat < 128) : first ≠ byte := fun same => by
        subst same
        omega
      have notLess {byte : UInt8} (low : byte.toNat ≤ 128) : ¬first < byte := fun less => by
        rw [UInt8.lt_iff_toNat_lt] at less
        omega
      dsimp only at read
      rw [if_neg (other (by decide)), if_neg (other (by decide)), if_neg (notLess (by decide)), if_neg (notLess (by decide))] at read
      obtain ⟨index', isChar⟩ := @reads_utf8 Anything _ _ _ spelled width index (encode rest) trivial
      obtain ⟨text, cursor', isText, read⟩ := bind_eq_ok_iff.mp read
      rw [isChar] at isText
      cases isText
      refine continues (.plain character ?_ ?_ ?_) index' result cursor read
      · omega
      · rintro rfl
        exact absurd wide (by decide)
      · rintro rfl
        exact absurd wide (by decide)

theorem string_accepts : Accepts JsonParser.string chars fun value text => ∃ pieces : Pieces, text = pieces.text ∧ pieces.decoded = value := by
  rw [JsonParser.string]
  refine (Accepts.take (by decide : '"'.toNat < 128)).bind fun _ text rest _ isQuote => ?_
  subst isQuote
  refine Accepts.turns fun turns => (stringLoop_accepts turns []).mono fun value text spelled => ?_
  obtain ⟨pieces, rfl, rfl⟩ := spelled
  exact ⟨pieces, rfl, (List.nil_append _).symm⟩

end Strings

/-! ## Numbers -/

section Numbers

variable {ε : Type} {chars : Text}

theorem digits_accepts {leadingZero : ε} {first : Char} (isFirst : first.isDigit = true) :
    Accepts (digits leadingZero) (first :: chars) fun bytes text => bytes = encode text ∧ ∃ numeral : Numeral, text = numeral.digits.chars := by
  have ascii : first.toNat < 128 := by
    have bounds := digit_bounds isFirst
    omega
  rw [digits]
  intro index value cursor read
  obtain ⟨consumed, cursor', isConsumed, answered⟩ := bind_eq_ok_iff.mp read
  rw [encode_cons, utf8EncodeChar_ascii ascii, List.singleton_append, consume] at isConsumed
  dsimp only at isConsumed
  split_ifs at isConsumed with zero
  · cases isConsumed
    cases ofNat_injective ascii (by decide : '0'.toNat < 128) zero
    rw [if_pos rfl] at answered
    obtain ⟨more, cursor', isMore, answered⟩ := bind_eq_ok_iff.mp answered
    cases isMore
    dsimp only at answered
    split at answered
    · cases answered
    · cases answered
      exact ⟨['0'], chars, rfl, rfl, rfl, Numeral.mk (Digits.ofNat 0) (.inl rfl), rfl⟩
  · cases isConsumed
    have digitAscii : ∀ byte, isDigit byte = true → byte.toNat < 128 := by
      intro byte digit
      rw [isDigit, Bool.and_eq_true, decide_eq_true_eq, decide_eq_true_eq, UInt8.le_iff_toNat_le, UInt8.le_iff_toNat_le] at digit
      have bounds : 0x30 ≤ byte.toNat ∧ byte.toNat ≤ 0x39 := digit
      omega
    obtain ⟨taken, rest, split, isTaken, dropped, areDigits⟩ := encode_takeWhile digitAscii (first :: chars)
    have run : (UInt8.ofNat first.toNat :: encode chars) = encode (first :: chars) := by
      rw [encode_cons, utf8EncodeChar_ascii ascii, List.singleton_append]
    rw [run] at answered
    cases taken with
    | nil =>
      rw [← run, List.takeWhile_cons_of_pos (isDigit_ofNat isFirst)] at isTaken
      cases isTaken
    | cons first' taken =>
      obtain ⟨rfl, rfl⟩ := List.cons.inj split
      have isChar : ∀ character ∈ first :: taken, character.isDigit = true := by
        intro character member
        obtain ⟨isAscii, digit⟩ := areDigits character member
        rw [isDigit, Bool.and_eq_true, decide_eq_true_eq, decide_eq_true_eq] at digit
        have low : 0x30 ≤ character.toNat := (byte_le (by omega) (by decide : 0x30 < 256)).mp digit.1
        have high : character.toNat ≤ 0x39 := (byte_le (by decide : 0x39 < 256) (by omega)).mp digit.2
        simp only [Char.isDigit, Bool.and_eq_true, decide_eq_true_eq, UInt32.le_iff_toNat_le]
        exact ⟨low, high⟩
      cases answered
      refine ⟨first :: taken, rest, rfl, dropped, isTaken, ⟨⟨first :: taken, List.cons_ne_nil _ _, isChar⟩, .inr ?_⟩, rfl⟩
      intro same
      cases same
      exact zero rfl

theorem number_accepts {leadingZero notUtf8 outOfRange : ε} {first : Char} (isFirst : first.isDigit = true) :
    Accepts (number leadingZero notUtf8 outOfRange) (first :: chars) fun value text =>
      ∃ numeral : Numeral, text = numeral.digits.chars ∧ parseU64 numeral.digits.chars = some value := by
  rw [number]
  refine (digits_accepts isFirst).bind fun bytes text rest _ spelled => ?_
  obtain ⟨rfl, numeral, rfl⟩ := spelled
  rw [fromUtf8_encode]
  dsimp only
  split
  · exact Accepts.throw _
  · rename_i value isValue
    exact Accepts.pure ⟨numeral, List.append_nil _, isValue⟩

end Numbers

/-! ## Trees -/

def Blank.append (left right : Blank) : Blank where
  chars := left.chars ++ right.chars
  blank := fun character member => (List.mem_append.mp member).elim (left.blank character) (right.blank character)

section Trees

variable {chars : Text}

/-- The text of a tree behind blanks. -/
def SpellsValue (value : JsonValue) (text : Text) : Prop := ∃ (blank : Blank) (tree : Cst), text = blank.chars ++ tree.text ∧ tree.read = .ok value

/-- The text of an array without what opens it. -/
def SpellsElements (values : List JsonValue) (result : JsonValue) (text : Text) : Prop :=
  ∃ (before : Blank) (first : Cst) (after : Blank) (rest : Elements) (found : JsonValue) (others : List JsonValue),
    text = before.chars ++ (first.text ++ (after.chars ++ rest.text)) ∧ first.read = .ok found ∧ rest.read = .ok others ∧
      result = .array (values ++ found :: others)

/-- The text of an object without what opens it. -/
def SpellsMembers (values : List (Text × JsonValue)) (result : JsonValue) (text : Text) : Prop :=
  ∃ (before : Blank) (key : Pieces) (between gap : Blank) (first : Cst) (after : Blank) (rest : Members) (found : JsonValue)
    (values' all : List (Text × JsonValue)),
    text = before.chars ++ (key.text ++ (between.chars ++ ':' :: (gap.chars ++ (first.text ++ (after.chars ++ rest.text))))) ∧
      first.read = .ok found ∧ addMember key.decoded found values = .ok values' ∧ rest.read values' = .ok all ∧ result = .object all

variable {value : Scanner JsonError JsonValue}

theorem arrayLoop_accepts (sound : ∀ chars, Accepts value chars SpellsValue) (turns : ℕ) (values : List JsonValue) :
    Accepts (JsonParser.arrayLoop value turns values) chars (SpellsElements values) := by
  induction turns generalizing values chars with
  | zero => exact Accepts.throw _
  | succ turns ih =>
    rw [JsonParser.arrayLoop_succ]
    refine (sound chars).bind fun found text rest _ spelled => ?_
    obtain ⟨before, first, rfl, isFirst⟩ := spelled
    rw [JsonParser.arrayRest]
    refine Accepts.whitespace.bind fun _ text rest _ isBlank => ?_
    obtain ⟨after, rfl⟩ := isBlank
    refine Accepts.if_consume (by decide : ']'.toNat < 128) ?_ ?_
    · intro rest
      refine Accepts.pure ⟨before, first, after, .nil, found, [], ?_, isFirst, rfl, rfl⟩
      rw [Elements.text, List.append_assoc]
    · refine (Accepts.take (by decide : ','.toNat < 128)).bind fun _ text rest _ isComma => ?_
      subst isComma
      refine (ih (values ++ [found])).mono fun result text spelled => ?_
      obtain ⟨before', first', after', rest', found', others, rfl, isFirst', areOthers, rfl⟩ := spelled
      refine ⟨before, first, after, .more before' first' after' rest', found, found' :: others, ?_, isFirst, ?_, ?_⟩
      · rw [Elements.text, List.append_assoc, List.singleton_append]
      · rw [Elements.read, isFirst', areOthers]
        rfl
      · rw [List.append_assoc, List.singleton_append]

theorem array_accepts (sound : ∀ chars, Accepts value chars SpellsValue) :
    Accepts (JsonParser.array value) chars fun result text => ∃ tree : Cst, text = tree.text ∧ tree.read = .ok result := by
  rw [JsonParser.array]
  refine (Accepts.take (by decide : '['.toNat < 128)).bind fun _ text rest _ isOpen => ?_
  subst isOpen
  refine Accepts.whitespace.bind fun _ text rest _ isBlank => ?_
  obtain ⟨blank, rfl⟩ := isBlank
  refine Accepts.if_consume (by decide : ']'.toNat < 128) ?_ ?_
  · intro rest
    exact Accepts.pure ⟨.emptyArray blank, by rw [Cst.text]; rfl, by rw [Cst.read]⟩
  · refine Accepts.turns fun turns => (arrayLoop_accepts sound turns []).mono fun result text spelled => ?_
    obtain ⟨before, first, after, rest, found, others, rfl, isFirst, areOthers, rfl⟩ := spelled
    refine ⟨.array (blank.append before) first after rest, ?_, ?_⟩
    · rw [Cst.text, Blank.append, List.append_assoc, List.singleton_append]
    · rw [Cst.read, isFirst, areOthers]
      rfl

theorem objectLoop_accepts (sound : ∀ chars, Accepts value chars SpellsValue) (turns : ℕ) (values : List (Text × JsonValue)) :
    Accepts (JsonParser.objectLoop value turns values) chars (SpellsMembers values) := by
  induction turns generalizing values chars with
  | zero => exact Accepts.throw_at
  | succ turns ih =>
    rw [JsonParser.objectLoop_succ]
    refine Accepts.whitespace.bind fun _ text rest _ isBlank => ?_
    obtain ⟨before, rfl⟩ := isBlank
    refine string_accepts.bind fun key text rest _ spelled => ?_
    obtain ⟨pieces, rfl, rfl⟩ := spelled
    rw [JsonParser.memberRest]
    refine Accepts.whitespace.bind fun _ text rest _ isBlank => ?_
    obtain ⟨between, rfl⟩ := isBlank
    refine (Accepts.take (by decide : ':'.toNat < 128)).bind fun _ text rest _ isColon => ?_
    subst isColon
    refine (sound rest).bind fun found text rest _ spelled => ?_
    obtain ⟨gap, first, rfl, isFirst⟩ := spelled
    rcases inserted : insert pieces.decoded found values with ⟨values', _ | old⟩
    · have added : addMember pieces.decoded found values = .ok values' := by rw [addMember, inserted]
      dsimp only
      rw [JsonParser.objectRest]
      refine Accepts.whitespace.bind fun _ text rest _ isBlank => ?_
      obtain ⟨after, rfl⟩ := isBlank
      refine Accepts.if_consume (by decide : '}'.toNat < 128) ?_ ?_
      · intro rest
        refine Accepts.pure ⟨before, pieces, between, gap, first, after, .nil, found, values', values', ?_, isFirst, added, rfl, rfl⟩
        simp only [Members.text, List.append_assoc, List.cons_append, List.nil_append]
      · refine (Accepts.take (by decide : ','.toNat < 128)).bind fun _ text rest _ isComma => ?_
        subst isComma
        refine (ih values').mono fun result text spelled => ?_
        obtain ⟨before', key', between', gap', first', after', rest', found', values'', all, rfl, isFirst', added', areOthers, rfl⟩ := spelled
        refine ⟨before, pieces, between, gap, first, after, .more before' key' between' gap' first' after' rest', found, values', all, ?_,
          isFirst, added, ?_, rfl⟩
        · simp only [Members.text, List.append_assoc, List.cons_append, List.nil_append]
        · rw [Members.read, isFirst']
          change (do rest'.read (← addMember key'.decoded found' values')) = _
          rw [added']
          exact areOthers
    · exact Accepts.throw _

theorem object_accepts (sound : ∀ chars, Accepts value chars SpellsValue) :
    Accepts (JsonParser.object value) chars fun result text => ∃ tree : Cst, text = tree.text ∧ tree.read = .ok result := by
  rw [JsonParser.object]
  refine (Accepts.take (by decide : '{'.toNat < 128)).bind fun _ text rest _ isOpen => ?_
  subst isOpen
  refine Accepts.whitespace.bind fun _ text rest _ isBlank => ?_
  obtain ⟨blank, rfl⟩ := isBlank
  refine Accepts.if_consume (by decide : '}'.toNat < 128) ?_ ?_
  · intro rest
    exact Accepts.pure ⟨.emptyObject blank, by rw [Cst.text]; rfl, by rw [Cst.read]⟩
  · refine Accepts.turns fun turns => (objectLoop_accepts sound turns []).mono fun result text spelled => ?_
    obtain ⟨before, key, between, gap, first, after, rest, found, values', all, rfl, isFirst, added, areOthers, rfl⟩ := spelled
    refine ⟨.object (blank.append before) key between gap first after rest, ?_, ?_⟩
    · rw [Cst.text, Blank.append, List.append_assoc, List.singleton_append]
    · rw [Cst.read, isFirst]
      change (do return JsonValue.object (← rest.read (← addMember key.decoded found []))) = _
      rw [added]
      change (do return JsonValue.object (← rest.read values')) = _
      rw [areOthers]
      rfl

theorem keyword_accepts {word : Text} {value : JsonValue} (ascii : (word.all fun character => character.toNat < 128) = true) :
    Accepts (JsonParser.keyword (encode word) value) chars fun result text => text = word ∧ result = value := by
  have isAscii : ∀ character ∈ word, character.toNat < 128 := fun character member =>
    of_decide_eq_true (List.all_eq_true.mp ascii character member)
  rw [JsonParser.keyword]
  exact (Accepts.keyword isAscii).bind fun _ text rest _ isWord => Accepts.pure ⟨by rw [isWord, List.append_nil], rfl⟩

/-- What begins with a byte that is a digit begins with a digit. -/
theorem isDigit_head {byte : UInt8} (first : (encode chars).head? = some byte) (digit : isDigit byte = true) :
    ∃ character rest, chars = character :: rest ∧ character.isDigit = true := by
  rw [isDigit, Bool.and_eq_true, decide_eq_true_eq, decide_eq_true_eq, UInt8.le_iff_toNat_le, UInt8.le_iff_toNat_le] at digit
  have bounds : 0x30 ≤ byte.toNat ∧ byte.toNat ≤ 0x39 := digit
  cases chars with
  | nil => cases first
  | cons character rest =>
    refine ⟨character, rest, rfl, ?_⟩
    rw [encode_cons] at first
    rcases Nat.lt_or_ge character.toNat 128 with ascii | wide
    · rw [utf8EncodeChar_ascii ascii, List.singleton_append, List.head?_cons, Option.some.injEq] at first
      subst first
      rw [Utf8.toNat_ofNat (by omega)] at bounds
      simp only [Char.isDigit, Bool.and_eq_true, decide_eq_true_eq, UInt32.le_iff_toNat_le]
      exact bounds
    · obtain ⟨first', bytes, spelled, -⟩ := utf8EncodeChar_wide wide
      have high := first_ge wide spelled
      rw [spelled, List.cons_append, List.head?_cons, Option.some.injEq] at first
      subst first
      omega

theorem dispatch_accepts (sound : ∀ chars, Accepts value chars SpellsValue) {byte : UInt8} (first : (encode chars).head? = some byte) :
    Accepts (JsonParser.dispatch value byte) chars fun result text => ∃ tree : Cst, text = tree.text ∧ tree.read = .ok result := by
  rw [JsonParser.dispatch]
  split_ifs with brace bracket quote true_ false_ null digit
  · exact object_accepts sound
  · exact array_accepts sound
  · refine string_accepts.bind fun value text rest _ spelled => ?_
    obtain ⟨pieces, rfl, rfl⟩ := spelled
    exact Accepts.pure ⟨.string pieces, by rw [Cst.text, List.append_nil], by rw [Cst.read]⟩
  · refine (@keyword_accepts _ "true".toList (.bool true) rfl).mono fun result text spelled => ?_
    obtain ⟨rfl, rfl⟩ := spelled
    exact ⟨.bool true, by rw [Cst.text]; rfl, by rw [Cst.read]⟩
  · refine (@keyword_accepts _ "false".toList (.bool false) rfl).mono fun result text spelled => ?_
    obtain ⟨rfl, rfl⟩ := spelled
    exact ⟨.bool false, by rw [Cst.text]; rfl, by rw [Cst.read]⟩
  · refine (@keyword_accepts _ "null".toList .null rfl).mono fun result text spelled => ?_
    obtain ⟨rfl, rfl⟩ := spelled
    exact ⟨.null, by rw [Cst.text], by rw [Cst.read]⟩
  · obtain ⟨character, rest, rfl, isFirst⟩ := isDigit_head first digit
    rw [JsonParser.number]
    refine (number_accepts isFirst).bind fun value text rest _ spelled => ?_
    obtain ⟨numeral, rfl, isValue⟩ := spelled
    exact Accepts.pure ⟨.number numeral, by rw [Cst.text, List.append_nil], by rw [Cst.read, isValue]⟩
  · exact Accepts.throw_at

theorem value_accepts (fuel : ℕ) (chars : Text) : Accepts (JsonParser.value fuel) chars SpellsValue := by
  induction fuel generalizing chars with
  | zero => exact Accepts.throw _
  | succ fuel ih =>
    rw [JsonParser.value_succ]
    refine Accepts.whitespace.bind fun _ text rest _ isBlank => ?_
    obtain ⟨blank, rfl⟩ := isBlank
    refine Accepts.peek ?_
    cases first : (encode rest).head? with
    | none => exact Accepts.throw _
    | some byte =>
      refine (dispatch_accepts ih first).mono fun result text spelled => ?_
      obtain ⟨tree, rfl, isValue⟩ := spelled
      exact ⟨blank, tree, rfl, isValue⟩

end Trees

/-! ## Documents -/

/-- Nothing may be left at the end. -/
theorem finished_ok_iff {ε α : Type} {rest : List UInt8} {error : ε} {value result : α} :
    (do
      if rest ≠ [] then throw error
      return value : Except ε α) = .ok result ↔ value = result ∧ rest = [] := by
  by_cases finished : rest = []
  · rw [if_neg (not_not.mpr finished)]
    exact ⟨fun same => ⟨Except.ok.inj same, finished⟩, fun conditions => congrArg _ conditions.1⟩
  · rw [if_pos finished]
    exact ⟨nofun, fun conditions => absurd conditions.2 finished⟩

theorem strictJsonRecord_ok_iff {bytes : List UInt8} {document : Text} : strictJsonRecord bytes = .ok document ↔
    bytes.length ≤ MAX_RETAINED_JSON_BYTES ∧ fromUtf8 bytes = some document ∧ 0 ∉ bytes ∧
      ∃ cursor, (do StructuralJson.value 0; whitespace : Scanner RecordError Unit) ⟨0, bytes⟩ = .ok ((), cursor) ∧ cursor.rest = [] := by
  rw [strictJsonRecord]
  rcases Nat.lt_or_ge MAX_RETAINED_JSON_BYTES bytes.length with large | fits
  · rw [if_pos large]
    exact ⟨nofun, fun conditions => absurd large (Nat.not_lt.mpr conditions.1)⟩
  rw [if_neg (Nat.not_lt.mpr fits)]
  cases decoded : fromUtf8 bytes with
  | none => exact ⟨nofun, fun conditions => nomatch conditions.2.1⟩
  | some text =>
    dsimp only [pure_bind]
    by_cases nul : 0 ∈ bytes
    · rw [if_pos nul]
      exact ⟨nofun, fun conditions => absurd nul conditions.2.2.1⟩
    rw [if_neg nul]
    generalize (do StructuralJson.value 0; whitespace : Scanner RecordError Unit) ⟨0, bytes⟩ = outcome
    rcases outcome with error | ⟨⟨⟩, cursor⟩
    · exact ⟨nofun, fun ⟨_, _, _, _, never, _⟩ => nomatch never⟩
    · refine finished_ok_iff.trans ⟨fun same => ?_, fun conditions => ?_⟩
      · obtain ⟨rfl, finished⟩ := same
        exact ⟨fits, rfl, nul, cursor, rfl, finished⟩
      · obtain ⟨-, same, -, cursor', isCursor, finished⟩ := conditions
        cases same
        cases isCursor
        exact ⟨rfl, finished⟩

theorem parseJson_ok_iff {document : Text} {value : JsonValue} : parseJson document = .ok value ↔
    strictJsonRecord (encode document) = .ok document ∧
      ∃ cursor, (do let value ← JsonParser.value ((encode document).length + 1); whitespace; return value : Scanner JsonError JsonValue)
        ⟨0, encode document⟩ = .ok (value, cursor) ∧ cursor.rest = [] := by
  rw [parseJson]
  cases scanned : strictJsonRecord (encode document) with
  | error error =>
    constructor
    · intro never
      cases never
    · rintro ⟨never, -⟩
      cases never
  | ok text =>
    obtain ⟨-, decoded, -⟩ := strictJsonRecord_ok_iff.mp scanned
    rw [fromUtf8_encode] at decoded
    cases decoded
    change (do
        let read ← (do
          let value ← JsonParser.value ((encode document).length + 1)
          whitespace
          return value : Scanner JsonError JsonValue) ⟨0, encode document⟩
        if read.2.rest ≠ [] then throw (.trailing read.2.index)
        return read.1 : Except JsonError JsonValue) = .ok value ↔ _
    generalize (do let value ← JsonParser.value ((encode document).length + 1); whitespace; return value : Scanner JsonError JsonValue)
      ⟨0, encode document⟩ = outcome
    rcases outcome with error | ⟨found, cursor⟩
    · constructor
      · intro never
        cases never
      · rintro ⟨-, _, never, -⟩
        cases never
    · refine finished_ok_iff.trans ⟨fun same => ?_, fun conditions => ?_⟩
      · obtain ⟨rfl, finished⟩ := same
        exact ⟨rfl, cursor, rfl, finished⟩
      · obtain ⟨-, cursor', isCursor, finished⟩ := conditions
        cases isCursor
        exact ⟨rfl, finished⟩

/-- An accepted text is that of a tree, and has its value. -/
theorem parseJson_ok {document : Text} {value : JsonValue} (accepted : parseJson document = .ok value) :
    ∃ (before : Blank) (tree : Cst) (after : Blank), document = before.chars ++ (tree.text ++ after.chars) ∧ tree.read = .ok value := by
  obtain ⟨-, cursor, read, isEnd⟩ := parseJson_ok_iff.mp accepted
  have whole : Accepts (do let value ← JsonParser.value ((encode document).length + 1); whitespace; return value : Scanner JsonError JsonValue)
      document fun value text => ∃ (before : Blank) (tree : Cst) (after : Blank),
        text = before.chars ++ (tree.text ++ after.chars) ∧ tree.read = .ok value := by
    refine (value_accepts _ document).bind fun value text rest _ spelled => ?_
    obtain ⟨before, tree, rfl, isValue⟩ := spelled
    refine Accepts.whitespace.bind fun _ text rest _ isBlank => ?_
    obtain ⟨after, rfl⟩ := isBlank
    exact Accepts.pure ⟨before, tree, after, by rw [List.append_nil, List.append_assoc], isValue⟩
  obtain ⟨text, rest, split, left, before, tree, after, rfl, isValue⟩ := whole 0 value cursor read
  rw [isEnd] at left
  have nothing : rest = [] := encode_injective left.symm
  exact ⟨before, tree, after, by rw [split, nothing, List.append_nil], isValue⟩

end HellRs.Evidence
