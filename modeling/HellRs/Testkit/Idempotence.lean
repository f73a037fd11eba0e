import HellRs.Testkit.Lines

/-! # Normal texts

What comes out of the passes has no occurrence: a marker begins no path and no quoted path, and what is left of the text had none.
-/

namespace HellRs.Testkit.Diagnostics

open Replacing

section Normal

variable {platform : Platform} {script program : Bytes} {frame : Prop}

theorem Piece.normal_ne_nil (piece : Piece) : piece.normal ≠ [] := by
  cases piece <;> exact List.cons_ne_nil _ _

/-- The pieces that are not kept have a marker. -/
theorem kept_of_normal {pieces : Pieces} {byte : UInt8} (inMarker : byte ∈ PORTABLE) (notMem : byte ∉ Pieces.normal pieces) :
    pieces = (Pieces.normal pieces).map .kept := by
  induction pieces with
  | nil => rfl
  | cons piece pieces ih =>
    rw [Pieces.normal_cons, List.mem_append, not_or] at notMem
    cases piece with
    | kept byte => exact congrArg (Piece.kept byte :: ·) (ih notMem.2)
    | path => exact absurd inMarker notMem.1
    | quoted => exact absurd (List.mem_append_left _ (List.mem_append_right _ inMarker)) notMem.1
    | marker => exact absurd inMarker notMem.1

/-- A normal text is read as kept bytes as far as no marker reaches into it. -/
theorem kept_of_prefix {whole rest : Bytes}
    (noMarker : ∀ earlier text more, whole = earlier ++ text → text ≠ [] → PORTABLE ++ more ≠ text ++ rest)
    (noSpan : ∀ earlier text more, whole = earlier ++ text → text ≠ [] → SRC_SPAN ++ (PORTABLE ++ more) ≠ text ++ rest) :
    ∀ (text earlier : Bytes) (pieces : Pieces), whole = earlier ++ text → Pieces.normal pieces = text ++ rest →
      ∃ pieces', pieces = text.map .kept ++ pieces' ∧ Pieces.normal pieces' = rest := by
  intro text
  induction text with
  | nil => exact fun _ pieces _ isText => ⟨pieces, rfl, isText⟩
  | cons byte text ih =>
    intro earlier pieces split isText
    cases pieces with
    | nil => cases isText
    | cons piece pieces =>
      rw [Pieces.normal_cons] at isText
      cases piece with
      | kept other =>
        obtain ⟨rfl, isRest⟩ := List.cons.inj isText
        obtain ⟨pieces', rfl, same⟩ := ih (earlier ++ [other]) pieces (by rw [split, List.append_assoc]; rfl) isRest
        exact ⟨pieces', rfl, same⟩
      | path => exact absurd isText (noMarker earlier _ _ split (List.cons_ne_nil _ _))
      | marker => exact absurd isText (noMarker earlier _ _ split (List.cons_ne_nil _ _))
      | quoted =>
        rw [Piece.normal, List.append_assoc, List.append_assoc] at isText
        exact absurd isText (noSpan earlier _ _ split (List.cons_ne_nil _ _))

/-- A word that begins in no piece but at its first byte begins between two pieces. -/
theorem boundary {word rest : Bytes} (nonempty : word ≠ [])
    (inside : ∀ (piece : Piece) tail more, tail ∈ piece.normal.tail.tails → tail ≠ [] → tail ++ more ≠ word ++ rest) :
    ∀ (pieces : Pieces) (before : Bytes), Pieces.normal pieces = before ++ (word ++ rest) →
      ∃ earlier later : Pieces, pieces = earlier ++ later ∧ Pieces.normal earlier = before ∧ Pieces.normal later = word ++ rest := by
  intro pieces
  induction pieces with
  | nil =>
    intro before split
    exact absurd (List.append_eq_nil_iff.mp (List.append_eq_nil_iff.mp split.symm).2).1 nonempty
  | cons piece pieces ih =>
    intro before split
    cases before with
    | nil => exact ⟨[], piece :: pieces, rfl, rfl, split⟩
    | cons byte before =>
      rw [Pieces.normal_cons] at split
      rcases List.append_eq_append_iff.mp split with ⟨before', isBefore, others⟩ | ⟨tail, isPiece, others⟩
      · obtain ⟨earlier, later, rfl, isEarlier, isLater⟩ := ih before' others
        refine ⟨piece :: earlier, later, rfl, ?_, isLater⟩
        rw [Pieces.normal_cons, isEarlier, isBefore]
      · cases tail with
        | nil =>
          rw [List.append_nil] at isPiece
          refine ⟨[piece], pieces, rfl, ?_, others.symm⟩
          rw [Pieces.normal, List.flatMap_singleton, isPiece]
        | cons first tail =>
          refine absurd others.symm (inside piece _ _ ?_ (List.cons_ne_nil _ _))
          rw [isPiece, List.cons_append, List.tail_cons, List.mem_tails]
          exact List.suffix_append ..

theorem tail_facts (piece : Piece) : ∀ tail ∈ piece.normal.tail.tails,
    (tail.head? = some 0x53 → ∃ next, tail.tail.head? = some next ∧ next ≠ 0x72) ∧ (tail.head? = some 0x3c → tail[9]? = some 0x2f) := by
  have all : ∀ tail ∈ (SRC_SPAN ++ PORTABLE ++ [0x22]).tail.tails,
      (tail.head? = some 0x53 → tail.tail.head? = some 0x70 ∨ tail.tail.head? = some 0x41) ∧ (tail.head? = some 0x3c → tail[9]? = some 0x2f) := by
    decide
  have some_ : ∀ tail ∈ PORTABLE.tail.tails,
      (tail.head? = some 0x53 → tail.tail.head? = some 0x70 ∨ tail.tail.head? = some 0x41) ∧ (tail.head? = some 0x3c → tail[9]? = some 0x2f) := by
    decide
  have different {tail : Bytes} (facts : (tail.head? = some 0x53 → tail.tail.head? = some 0x70 ∨ tail.tail.head? = some 0x41) ∧
      (tail.head? = some 0x3c → tail[9]? = some 0x2f)) :
      (tail.head? = some 0x53 → ∃ next, tail.tail.head? = some next ∧ next ≠ 0x72) ∧ (tail.head? = some 0x3c → tail[9]? = some 0x2f) := by
    refine ⟨fun first => ?_, facts.2⟩
    rcases facts.1 first with second | second
    · exact ⟨_, second, by decide⟩
    · exact ⟨_, second, by decide⟩
  intro tail member
  cases piece with
  | kept byte =>
    have nothing : tail = [] := List.mem_singleton.mp member
    subst nothing
    exact ⟨nofun, nofun⟩
  | path => exact different (some_ tail member)
  | marker => exact different (some_ tail member)
  | quoted => exact different (all tail member)

/-- The tenth byte tells the markers apart. -/
theorem marker_ne {text more rest : Bytes} (tenth : text[9]? = some 0x2f) : text ++ more ≠ WINDOWS ++ rest := by
  intro same
  have equal := congrArg (fun whole : Bytes => whole[9]?) same
  have length : 9 < text.length := (List.getElem?_eq_some_iff.mp tenth).1
  rw [List.getElem?_append_left length, tenth] at equal
  have slash : some (0x2f : UInt8) = some 0x5c := equal
  exact absurd slash (by decide)

theorem head?_of_append_eq {text more rest : Bytes} {byte : UInt8} (nonempty : text ≠ []) (same : text ++ more = byte :: rest) :
    text.head? = some byte := by
  cases text with
  | nil => exact absurd rfl nonempty
  | cons first text => exact congrArg some (List.head_eq_of_cons_eq same)

/-! ## Occurrences in a normal text -/

theorem Reads.none_of_kept {before rest text : Bytes} {pieces : Pieces} {piece : Piece} {after : Bytes}
    (reads : Reads script program frame before rest (text.map .kept ++ pieces)) (nonempty : text ≠ [])
    (split : rest = piece.text script ++ after) : ¬Occurs program frame before piece after := by
  cases text with
  | nil => exact absurd rfl nonempty
  | cons byte text =>
    rcases reads.cases with ⟨-, never⟩ | ⟨_, _, _, -, -, none, -⟩ | ⟨_, _, _, -, same, occurs, -⟩
    · cases never
    · exact none piece after split
    · cases same
      exact occurs.elim

theorem ScriptPath.last_shown (path : ScriptPath platform script) : ∃ more, haskellShowPath script = more ++ [0x6c] := by
  obtain ⟨init, last⟩ := path.last
  refine ⟨haskellShowPath init, ?_⟩
  rw [last, haskellShowPath, List.flatMap_append]
  rfl

/-- No end of a quoted path begins a span. -/
theorem ScriptPath.not_suffix (path : ScriptPath platform script) {earlier text longer : Bytes} (isWhole : quotedScript script = earlier ++ text)
    (nonempty : text ≠ []) (isSpan : SRC_SPAN = text ++ longer) : False := by
  have last := congrArg List.getLast? isWhole
  rw [quotedScript, List.getLast?_concat, List.getLast?_append_of_ne_nil _ nonempty] at last
  obtain ⟨init, rfl⟩ := List.getLast?_eq_some_iff.mp last.symm
  rw [quotedScript, ← List.append_assoc] at isWhole
  have shown := List.append_cancel_right isWhole
  obtain ⟨more, isShown⟩ := path.last_shown
  cases init with
  | nil => exact absurd (List.head_eq_of_cons_eq isSpan) (by decide)
  | cons byte init =>
    have lasts := congrArg List.getLast? shown
    rw [isShown, ← List.append_assoc, List.getLast?_concat, List.getLast?_append_of_ne_nil _ (List.cons_ne_nil _ _)] at lasts
    have member : (0x6c : UInt8) ∈ SRC_SPAN := by
      rw [isSpan]
      exact List.mem_append_left _ (List.mem_append_left _ (List.mem_of_getLast? lasts.symm))
    exact absurd member (by decide)

/-- No path is quoted in a normal text. -/
theorem Reads.no_quoted_normal (path : ScriptPath platform script) {line before after : Bytes} {pieces : Pieces}
    (reads : Reads script program frame [] line pieces) : Pieces.normal pieces ≠ before ++ (quotedScript script ++ after) := by
  intro split
  have apart (tail more : Bytes) (notR : tail.head? = some 0x53 → ∃ next, tail.tail.head? = some next ∧ next ≠ 0x72) (nonempty : tail ≠ []) :
      tail ++ more ≠ quotedScript script ++ after := by
    intro same
    obtain ⟨next, second, different⟩ := notR (head?_of_append_eq nonempty same)
    cases tail with
    | nil => exact nonempty rfl
    | cons first tail =>
      cases tail with
      | nil => cases second
      | cons next' tail =>
        cases second
        exact different (List.head_eq_of_cons_eq (List.tail_eq_of_cons_eq same))
  have noLess : 0x3c ∉ quotedScript script := by
    rw [quotedScript, List.mem_append, List.mem_append, mem_haskellShowPath, not_or, not_or]
    exact ⟨⟨by decide, path.noLess⟩, by decide⟩
  have noMarker (earlier text more : Bytes) (isWhole : quotedScript script = earlier ++ text) (nonempty : text ≠ []) :
      PORTABLE ++ more ≠ text ++ after := by
    intro same
    refine noLess ?_
    rw [isWhole]
    exact List.mem_append_right _ (mem_of_append_eq nonempty same.symm)
  have noSpan (earlier text more : Bytes) (isWhole : quotedScript script = earlier ++ text) (nonempty : text ≠ []) :
      SRC_SPAN ++ (PORTABLE ++ more) ≠ text ++ after := by
    intro same
    rcases List.append_eq_append_iff.mp same with ⟨longer, isText, others⟩ | ⟨longer, isSpan, -⟩
    · cases longer with
      | nil => exact @ScriptPath.not_suffix _ _ path _ _ [] isWhole nonempty (by rw [isText, List.append_nil, List.append_nil])
      | cons byte longer =>
        cases List.head_eq_of_cons_eq others
        refine noLess ?_
        rw [isWhole, isText]
        exact List.mem_append_right _ (List.mem_append_right _ (List.mem_cons_self ..))
    · exact path.not_suffix isWhole nonempty isSpan
  obtain ⟨earlier, later, rfl, -, isLater⟩ := boundary quotedScript_ne_nil
    (fun piece tail more member nonempty => apart tail more (tail_facts piece tail member).1 nonempty) pieces before split
  obtain ⟨rest, rfl, -⟩ := kept_of_prefix noMarker noSpan (quotedScript script) [] later rfl isLater
  have isText : Pieces.text script ((quotedScript script).map .kept ++ rest) = Piece.quoted.text script ++ Pieces.text script rest := by
    rw [Pieces.text_append, Pieces.text_kept]
    rfl
  exact reads.split.none_of_kept quotedScript_ne_nil isText trivial

/-- A marker with the other separator is not in a normal text. -/
theorem Reads.no_marker_normal {line before after : Bytes} {pieces : Pieces} (reads : Reads script program frame [] line pieces) :
    Pieces.normal pieces ≠ before ++ (WINDOWS ++ after) := by
  intro split
  have inside (piece : Piece) (tail more : Bytes) (member : tail ∈ piece.normal.tail.tails) (nonempty : tail ≠ []) :
      tail ++ more ≠ WINDOWS ++ after := fun same => marker_ne ((tail_facts piece tail member).2 (head?_of_append_eq nonempty same)) same
  obtain ⟨earlier, later, rfl, -, isLater⟩ := boundary (List.cons_ne_nil _ _) inside pieces before split
  have noMarker (earlier text more : Bytes) (isWhole : WINDOWS = earlier ++ text) (nonempty : text ≠ []) : PORTABLE ++ more ≠ text ++ after := by
    intro same
    have isTail : text ∈ WINDOWS.tails := by
      rw [List.mem_tails, isWhole]
      exact List.suffix_append ..
    have tenths : ∀ tail ∈ WINDOWS.tails, tail.head? = some 0x3c → tail = WINDOWS := by decide
    have isMarker := tenths text isTail (head?_of_append_eq nonempty same.symm)
    rw [isMarker] at same
    exact marker_ne rfl same
  have noSpan (earlier text more : Bytes) (isWhole : WINDOWS = earlier ++ text) (nonempty : text ≠ []) :
      SRC_SPAN ++ (PORTABLE ++ more) ≠ text ++ after := fun same =>
    not_span_of_windows isWhole nonempty ⟨PORTABLE ++ more, same⟩
  obtain ⟨rest, rfl, -⟩ := kept_of_prefix noMarker noSpan WINDOWS [] later rfl isLater
  have isText : Pieces.text script (WINDOWS.map .kept ++ rest) = Piece.marker.text script ++ Pieces.text script rest := by
    rw [Pieces.text_append, Pieces.text_kept]
    rfl
  exact reads.split.none_of_kept (List.cons_ne_nil _ _) isText trivial

theorem pathEnds_of_normal {pieces : Pieces} (ends : PathEnds (Pieces.normal pieces)) : PathEnds (Pieces.text script pieces) := by
  have plain (noMarker : 0x3c ∉ Pieces.normal pieces) : Pieces.text script pieces = Pieces.normal pieces := by
    rw [kept_of_normal (by decide) noMarker, Pieces.text_kept, Pieces.normal_kept]
  rcases ends with nothing | colon | broken
  · rw [PathEnds, plain (by rw [nothing]; exact List.not_mem_nil)]
    exact .inl nothing
  · cases pieces with
    | nil => cases colon
    | cons piece pieces =>
      cases piece with
      | kept byte => exact .inr (.inl colon)
      | path => cases colon
      | quoted => cases colon
      | marker => cases colon
  · rw [PathEnds, plain (lineEnd_plain broken).2.1]
    exact .inr (.inr broken)

/-- No path occurs in a normal text. -/
theorem Reads.no_path_normal (path : ScriptPath platform script) (name : ProgramName platform program) {line before after : Bytes} {pieces : Pieces}
    (reads : Reads script program frame [] line pieces) (split : Pieces.normal pieces = before ++ script ++ after) :
    ¬Occurs program frame before .path after := by
  rintro ⟨isBefore, ends⟩
  have noMarker (earlier text more : Bytes) (isWhole : before ++ script = earlier ++ text) (nonempty : text ≠ []) :
      PORTABLE ++ more ≠ text ++ after := by
    intro same
    have first := mem_of_append_eq nonempty same.symm
    rcases List.append_eq_append_iff.mp isWhole with ⟨text', -, isScript⟩ | ⟨text', isPrefix, isText⟩
    · refine path.noLess ?_
      rw [isScript]
      exact List.mem_append_right _ first
    · cases text' with
      | nil =>
        rw [isText, List.nil_append] at first
        exact path.noLess first
      | cons byte text' =>
        have blank := isBefore.blank_mem name isPrefix (List.cons_ne_nil _ _)
        rw [isText, List.append_assoc] at same
        rcases List.append_eq_append_iff.mp same with ⟨longer, isLonger, -⟩ | ⟨longer, isMarker, -⟩
        · refine (isBefore.mem name).2.1 ?_
          rw [isPrefix, isLonger]
          exact List.mem_append_right _ (List.mem_append_left _ (by decide))
        · have member : (0x20 : UInt8) ∈ PORTABLE := by
            rw [isMarker]
            exact List.mem_append_left _ blank
          exact absurd member (by decide)
  have noSpan (earlier text more : Bytes) (isWhole : before ++ script = earlier ++ text) (nonempty : text ≠ []) :
      SRC_SPAN ++ (PORTABLE ++ more) ≠ text ++ after := by
    intro same
    have isInfix := span_infix path isBefore isWhole nonempty (by decide) same
    exact name.slash (isInfix.mem (List.mem_append_right _ (by decide)))
  obtain ⟨rest, rfl, rfl⟩ := kept_of_prefix noMarker noSpan (before ++ script) [] pieces rfl split
  rw [List.map_append, List.append_assoc] at reads
  have later := reads.split
  rw [Pieces.text_kept, List.nil_append] at later
  have isText : Pieces.text script (script.map .kept ++ rest) = Piece.path.text script ++ Pieces.text script rest := by
    rw [Pieces.text_append, Pieces.text_kept]
    rfl
  exact later.none_of_kept path.ne_nil isText ⟨isBefore, pathEnds_of_normal ends⟩

/-- A normal text is read as it is. -/
theorem Reads.normal (path : ScriptPath platform script) (name : ProgramName platform program) {frame' : Prop} (weaker : frame' → frame)
    {line : Bytes} {pieces : Pieces} (reads : Reads script program frame [] line pieces) :
    Reads script program frame' [] (Pieces.normal pieces) ((Pieces.normal pieces).map .kept) := by
  have none (before : Bytes) (piece : Piece) (after : Bytes) (split : Pieces.normal pieces = before ++ (piece.text script ++ after)) :
      ¬Occurs program frame' before piece after := by
    intro occurs
    cases piece with
    | kept byte => exact occurs.elim
    | quoted => exact reads.no_quoted_normal path split
    | marker => exact reads.no_marker_normal split
    | path =>
      rw [Piece.text, ← List.append_assoc] at split
      refine reads.no_path_normal path name split ⟨?_, occurs.2⟩
      exact occurs.1.imp_right (.imp_right (.imp_right (.imp_left weaker)))
  have behind : ∀ rest before : Bytes, Pieces.normal pieces = before ++ rest → Reads script program frame' before rest (rest.map .kept) := by
    intro rest
    induction rest with
    | nil => exact fun before _ => .nil before
    | cons byte rest ih =>
      intro before split
      refine .kept (fun piece after isRest => none before piece after ?_) (ih (before ++ [byte]) ?_)
      · rw [split, isRest]
      · rw [split, List.append_assoc]
        rfl
  exact behind _ [] rfl

end Normal

end HellRs.Testkit.Diagnostics
