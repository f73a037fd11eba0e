import Mathlib
import HellRs.Lib.Growing
import HellRs.Lists.LazySplit

/-! # Sharing one stream of decisions

An index of the heap stands for a cell of the stream, for its entry, for a decision or for a list of the reference. `Sound` says that
each thunk fits what its index stands for, that no position has two streams or decisions, and that the classifier has been applied once
to the elements whose decisions are known.
-/

namespace HellRs.LazyList

variable {E : Type} {host : Host E}

/-! ## The reference -/

namespace Host

theorem whnf_mono {fuel more : ℕ} (le : fuel ≤ more) : ∀ {list : Lazy} {cell : Whnf E},
    host.whnf fuel list = some cell → host.whnf more list = some cell := by
  induction fuel generalizing more with
  | zero => intro list cell evaluates; cases evaluates
  | succ fuel ih =>
    obtain ⟨more, rfl⟩ : ∃ rest, more = rest + 1 := ⟨more - 1, by omega⟩
    have rest := @ih more (by omega)
    intro list cell
    cases list with
    | source => exact id
    | takeWhile => exact id
    | dropWhile wanted position =>
      simp only [whnf]
      cases host.classified position with
      | failed => exact id
      | never => exact id
      | value found =>
        cases found with
        | none => exact id
        | some decision =>
          intro evaluates
          dsimp only at evaluates ⊢
          split_ifs at evaluates ⊢
          · exact rest evaluates
          · exact evaluates
    | filter wanted position =>
      simp only [whnf]
      cases host.classified position with
      | failed => exact id
      | never => exact id
      | value found =>
        cases found with
        | none => exact id
        | some decision =>
          intro evaluates
          dsimp only at evaluates ⊢
          split_ifs at evaluates ⊢
          · exact evaluates
          · exact rest evaluates

theorem Evaluates.unique {list : Lazy} {cell cell' : Whnf E} (evaluates : host.Evaluates list cell)
    (evaluates' : host.Evaluates list cell') : cell = cell' := by
  obtain ⟨fuel, found⟩ := evaluates
  obtain ⟨fuel', found'⟩ := evaluates'
  have both := whnf_mono (Nat.le_max_left fuel fuel') found
  rw [whnf_mono (Nat.le_max_right fuel fuel') found'] at both
  exact (Option.some.inj both).symm

theorem Sees.unique {list : Lazy} {depth : ℕ} {answer answer' : Seen E} (sees : host.Sees list depth answer)
    (sees' : host.Sees list depth answer') : answer = answer' := by
  induction sees with
  | here evaluates => cases sees' with | here evaluates' => rw [evaluates.unique evaluates']
  | tail evaluates _ ih =>
    cases sees' with
    | tail evaluates' rest =>
      cases evaluates.unique evaluates'
      exact ih rest
    | nil _ evaluates' => cases evaluates.unique evaluates'
    | failed _ evaluates' => cases evaluates.unique evaluates'
  | nil _ evaluates =>
    cases sees' with
    | tail evaluates' => cases evaluates.unique evaluates'
    | nil => rfl
    | failed _ evaluates' => cases evaluates.unique evaluates'
  | failed _ evaluates =>
    cases sees' with
    | tail evaluates' => cases evaluates.unique evaluates'
    | nil _ evaluates' => cases evaluates.unique evaluates'
    | failed _ evaluates' =>
      cases evaluates.unique evaluates'
      rfl

/-- The cell at a depth of a list that ends. -/
def cellAt (positions : List ℕ) (depth : ℕ) : Seen E :=
  match positions[depth]? with
  | some position => .cons position
  | none => .nil

/-- All elements of a list, which ends. -/
inductive Lists (host : Host E) : Lazy → List ℕ → Prop
  | nil {list : Lazy} (evaluates : host.Evaluates list .nil) : Lists host list []
  | cons {list tail : Lazy} {position : ℕ} {positions : List ℕ} (evaluates : host.Evaluates list (.cons position tail))
      (rest : Lists host tail positions) : Lists host list (position :: positions)

theorem Lists.sees {list : Lazy} {positions : List ℕ} (lists : Lists host list positions) (depth : ℕ) :
    host.Sees list depth (cellAt positions depth) := by
  induction lists generalizing depth with
  | nil evaluates =>
    cases depth with
    | zero => exact .here evaluates
    | succ depth => exact .nil depth evaluates
  | cons evaluates _ ih =>
    cases depth with
    | zero => exact .here evaluates
    | succ depth => exact .tail evaluates (ih depth)

/-- Lists that evaluate to the same cells have the same elements. -/
theorem Lists.of_evaluates {list list' : Lazy} {positions : List ℕ} (lists : Lists host list positions)
    (same : ∀ cell, host.Evaluates list cell → host.Evaluates list' cell) : Lists host list' positions := by
  cases lists with
  | nil evaluates => exact .nil (same _ evaluates)
  | cons evaluates rest => exact .cons (same _ evaluates) rest

/-- A list whose elements have decisions. -/
def ofList (decisions : List Bool) : Host E where
  cell position := if position < decisions.length then .value .cons else .value .nil
  decision position := match decisions[position]? with
    | some decision => .value decision
    | none => .never

theorem ofList_classified (decisions : List Bool) (position : ℕ) :
    (ofList decisions : Host E).classified position = .value decisions[position]? := by
  simp only [classified, ofList]
  split_ifs with lt
  · simp [List.getElem?_eq_getElem lt]
  · simp [List.getElem?_eq_none (Nat.not_lt.mp lt)]

theorem ofList_source (decisions : List Bool) {position : ℕ} {rest : List Bool} (drop : decisions.drop position = rest) :
    Lists (ofList decisions : Host E) (.source position) ((rest.zipIdx position).map Prod.snd) := by
  induction rest generalizing position with
  | nil =>
    have ge : ¬position < decisions.length := Nat.not_lt.mpr (List.drop_eq_nil_iff.mp drop)
    exact .nil ⟨1, by simp only [whnf, ofList, if_neg ge]⟩
  | cons decision rest ih =>
    have lt : position < decisions.length := by
      rw [← Nat.not_le, ← List.drop_eq_nil_iff, drop]
      exact List.cons_ne_nil _ _
    have next : decisions.drop (position + 1) = rest := by rw [← List.tail_drop, drop, List.tail_cons]
    exact .cons ⟨1, by simp only [whnf, ofList, if_pos lt]⟩ (ih next)

/-- What a consumer makes of a finite list in which each element has its decision and its position. -/
def sublist : Consumer → List (Bool × ℕ) → List (Bool × ℕ)
  | .takeClass wanted => List.takeWhile fun element => element.1 == wanted
  | .dropClass wanted => List.dropWhile fun element => element.1 == wanted
  | .selectClass wanted => List.filter fun element => element.1 == wanted

/-- On a finite list the reference is the prefix, the suffix or the sublist. -/
theorem ofList_lists (decisions : List Bool) (consumer : Consumer) :
    Lists (ofList decisions : Host E) (consumer.reference 0) ((sublist consumer decisions.zipIdx).map Prod.snd) := by
  have each : ∀ rest position, decisions.drop position = rest →
      Lists (ofList decisions : Host E) (consumer.reference position) ((sublist consumer (rest.zipIdx position)).map Prod.snd) := by
    intro rest
    induction rest with
    | nil =>
      intro position drop
      have found : (ofList decisions : Host E).classified position = .value none := by
        rw [ofList_classified, List.getElem?_eq_none (List.drop_eq_nil_iff.mp drop)]
      cases consumer <;> exact .nil ⟨1, by simp only [Consumer.reference, whnf, found]⟩
    | cons decision rest ih =>
      intro position drop
      have found : (ofList decisions : Host E).classified position = .value (some decision) := by
        rw [ofList_classified, ← Nat.add_zero position, ← List.getElem?_drop, drop]
        rfl
      have next : decisions.drop (position + 1) = rest := by rw [← List.tail_drop, drop, List.tail_cons]
      have ih := ih (position + 1) next
      cases consumer with
      | takeClass wanted =>
        by_cases accept : decision = wanted
        · have taken : sublist (.takeClass wanted) ((decision :: rest).zipIdx position) =
              (decision, position) :: sublist (.takeClass wanted) (rest.zipIdx (position + 1)) := by
            simp [sublist, accept]
          rw [taken]
          exact .cons ⟨1, by simp only [Consumer.reference, whnf, found, if_pos accept]⟩ ih
        · have taken : sublist (.takeClass wanted) ((decision :: rest).zipIdx position) = [] := by simp [sublist, accept]
          rw [taken]
          exact .nil ⟨1, by simp only [Consumer.reference, whnf, found, if_neg accept]⟩
      | dropClass wanted =>
        by_cases accept : decision = wanted
        · have dropped : sublist (.dropClass wanted) ((decision :: rest).zipIdx position) =
              sublist (.dropClass wanted) (rest.zipIdx (position + 1)) := by
            simp [sublist, accept]
          rw [dropped]
          refine ih.of_evaluates ?_
          rintro cell ⟨fuel, evaluates⟩
          exact ⟨fuel + 1, by simpa only [Consumer.reference, whnf, found, if_pos accept] using evaluates⟩
        · have dropped : sublist (.dropClass wanted) ((decision :: rest).zipIdx position) = (decision :: rest).zipIdx position := by
            simp [sublist, accept]
          rw [dropped]
          refine .cons ⟨1, by simp only [Consumer.reference, whnf, found, if_neg accept]⟩ (ofList_source decisions next)
      | selectClass wanted =>
        by_cases accept : decision = wanted
        · have selected : sublist (.selectClass wanted) ((decision :: rest).zipIdx position) =
              (decision, position) :: sublist (.selectClass wanted) (rest.zipIdx (position + 1)) := by
            simp [sublist, accept]
          rw [selected]
          exact .cons ⟨1, by simp only [Consumer.reference, whnf, found, if_pos accept]⟩ ih
        · have selected : sublist (.selectClass wanted) ((decision :: rest).zipIdx position) =
              sublist (.selectClass wanted) (rest.zipIdx (position + 1)) := by
            simp [sublist, accept]
          rw [selected]
          refine ih.of_evaluates ?_
          rintro cell ⟨fuel, evaluates⟩
          exact ⟨fuel + 1, by simpa only [Consumer.reference, whnf, found, if_neg accept] using evaluates⟩
  exact each decisions 0 rfl

end Host

/-! ## What the heap stands for -/

inductive Label where
  | stream (position : ℕ)
  | entry (position : ℕ)
  | decision (position : ℕ)
  | part (list : Lazy)
deriving DecidableEq

/-- Every position has one stream and one decision at most. -/
inductive Label.Shared : Label → Prop
  | stream (position : ℕ) : Shared (.stream position)
  | decision (position : ℕ) : Shared (.decision position)

structure World where
  labels : List Label

instance : Preorder World where
  le world world' := world.labels <+: world'.labels
  le_refl world := List.prefix_refl world.labels
  le_trans _ _ _ := List.IsPrefix.trans

namespace World

def At (world : World) (index : ℕ) (label : Label) : Prop := world.labels[index]? = some label

variable {world world' : World} {index : ℕ} {label label' : Label}

theorem At.mono (there : world.At index label) (grown : world ≤ world') : world'.At index label := by
  obtain ⟨more, same⟩ := grown
  rw [At, ← same, List.getElem?_append_left (List.getElem?_eq_some_iff.mp there).1]
  exact there

theorem At.unique (there : world.At index label) (there' : world.At index label') : label = label' :=
  Option.some.inj (there.symm.trans there')

theorem At.lt (there : world.At index label) : index < world.labels.length := (List.getElem?_eq_some_iff.mp there).1

def push (world : World) (more : List Label) : World := ⟨world.labels ++ more⟩

theorem le_push (world : World) (more : List Label) : world ≤ world.push more := List.prefix_append ..

theorem at_push {more : List Label} : (world.push more).At index label ↔
    world.At index label ∨ world.labels.length ≤ index ∧ more[index - world.labels.length]? = some label := by
  rw [At, push, List.getElem?_append]
  split
  next lt => exact ⟨.inl, fun either => either.resolve_right fun after => absurd after.1 (Nat.not_le.mpr lt)⟩
  next ge =>
    have outside : ¬world.At index label := fun there => ge there.lt
    exact ⟨fun found => .inr ⟨Nat.not_lt.mp ge, found⟩, fun either => (either.resolve_left outside).2⟩

end World

/-- A cell of the stream as a value. -/
inductive StreamCell (host : Host E) (world : World) (position : ℕ) : Value → Prop
  | nil (ends : host.cell position = .value .nil) : StreamCell host world position (.list .nil)
  | cons {entry rest : ℕ} (element : host.cell position = .value .cons) (isEntry : world.At entry (.entry position))
      (isStream : world.At rest (.stream (position + 1))) : StreamCell host world position (.list (.cons (.thunk entry) (.thunk rest)))

/-- A reference of the heap stands for a list. -/
inductive Means (world : World) : ThunkRef → Lazy → Prop
  | cell (position : ℕ) : Means world (.cell position) (.source position)
  | thunk {index : ℕ} {list : Lazy} (isPart : world.At index (.part list)) : Means world (.thunk index) list

/-- A value stands for a cell of the reference. -/
inductive Represents (world : World) : Whnf E → Value → Prop
  | nil : Represents world .nil (.list .nil)
  | cons {position : ℕ} {tail : ThunkRef} {list : Lazy} (means : Means world tail list) :
      Represents world (.cons position list) (.list (.cons (.item position) tail))

inductive Fits (host : Host E) (world : World) : Label → ThunkState E → Prop
  | evaluating (label : Label) : Fits host world label .evaluating
  | suspendedStream (position : ℕ) (operation : String) :
      Fits host world (.stream position) (.suspended (.classify (.cell position) operation))
  | stream {position : ℕ} {value : Value} (cell : StreamCell host world position value) :
      Fits host world (.stream position) (.evaluated value)
  | failedStream {position : ℕ} {error : E} (failed : host.cell position = .failed error) :
      Fits host world (.stream position) (.failed (.guest error))
  | entry {position decision : ℕ} (isDecision : world.At decision (.decision position)) :
      Fits host world (.entry position) (.evaluated (.tuple [.thunk decision, .item position, .cell position]))
  | suspendedDecision (position : ℕ) : Fits host world (.decision position) (.suspended (.apply (.item position)))
  | decision {position : ℕ} {decision : Bool} (decided : host.decision position = .value decision) :
      Fits host world (.decision position) (.evaluated (.bool decision))
  | failedDecision {position : ℕ} {error : E} (failed : host.decision position = .failed error) :
      Fits host world (.decision position) (.failed (.guest error))
  | suspendedPart (consumer : Consumer) {position classified : ℕ} (isStream : world.At classified (.stream position)) (operation : String) :
      Fits host world (.part (consumer.reference position)) (.suspended (.consume consumer (.thunk classified) operation))
  | part {list : Lazy} {cell : Whnf E} {value : Value} (evaluates : host.Evaluates list cell) (represents : Represents world cell value) :
      Fits host world (.part list) (.evaluated value)
  | failedPart {list : Lazy} {error : E} (evaluates : host.Evaluates list (.failed error)) :
      Fits host world (.part list) (.failed (.guest error))

section Mono

variable {world world' : World} (grown : world ≤ world')
include grown

theorem StreamCell.mono {position : ℕ} {value : Value} (cell : StreamCell host world position value) :
    StreamCell host world' position value := by
  cases cell with
  | nil ends => exact .nil ends
  | cons element isEntry isStream => exact .cons element (isEntry.mono grown) (isStream.mono grown)

theorem Means.mono {ref : ThunkRef} {list : Lazy} (means : Means world ref list) : Means world' ref list := by
  cases means with
  | cell position => exact .cell position
  | thunk isPart => exact .thunk (isPart.mono grown)

theorem Represents.mono {cell : Whnf E} {value : Value} (represents : Represents world cell value) : Represents world' cell value := by
  cases represents with
  | nil => exact .nil
  | cons means => exact .cons (means.mono grown)

theorem Fits.mono {label : Label} {thunk : ThunkState E} (fits : Fits host world label thunk) : Fits host world' label thunk := by
  cases fits with
  | evaluating => exact .evaluating label
  | suspendedStream position operation => exact .suspendedStream position operation
  | stream cell => exact .stream (cell.mono grown)
  | failedStream failed => exact .failedStream failed
  | entry isDecision => exact .entry (isDecision.mono grown)
  | suspendedDecision position => exact .suspendedDecision position
  | decision decided => exact .decision decided
  | failedDecision failed => exact .failedDecision failed
  | suspendedPart consumer isStream operation => exact .suspendedPart consumer (isStream.mono grown) operation
  | part evaluates represents => exact .part evaluates (represents.mono grown)
  | failedPart evaluates => exact .failedPart evaluates

end Mono

def ThunkState.Settled : ThunkState E → Prop
  | .evaluated _ | .failed _ => True
  | .suspended _ | .evaluating => False

def ThunkState.Entered : ThunkState E → Prop
  | .suspended _ => False
  | .evaluating | .evaluated _ | .failed _ => True

theorem ThunkState.Settled.entered {thunk : ThunkState E} (settled : thunk.Settled) : thunk.Entered := by
  cases thunk <;> trivial

/-- The heap has a thunk for a label that is not suspended any more. -/
def Entered (world : World) (heap : List (ThunkState E)) (label : Label) : Prop :=
  ∃ index thunk, world.At index label ∧ heap[index]? = some thunk ∧ thunk.Entered

/-- What is said of the log even when a demand has not been answered. -/
structure Logged (allowed : Event → Prop) (state : State E) : Prop where
  once : ∀ position, state.log.count (.applied position) ≤ 1
  allowed : ∀ event ∈ state.log, allowed event

structure Sound (host : Host E) (allowed : Event → Prop) (busy : List ℕ) (world : World) (state : State E) : Prop
    extends Logged allowed state where
  length : state.heap.length = world.labels.length
  fits : ∀ index label thunk, world.At index label → state.heap[index]? = some thunk → Fits host world label thunk
  idle : ∀ index, state.heap[index]? = some .evaluating → index ∈ busy
  shared : ∀ index index' label, label.Shared → world.At index label → world.At index' label → index = index'
  /-- What belongs to an element is made when its cell of the stream is. -/
  grounded : ∀ position index, world.At index (.decision position) ∨ world.At index (.stream (position + 1)) →
    Entered world state.heap (.stream position)
  decided : ∀ position, .applied position ∈ state.log → Entered world state.heap (.decision position)

/-! ## Changes of the heap -/

section Changes

variable {world world' : World} {heap heap' : List (ThunkState E)} {label : Label} {index : ℕ} {thunk : ThunkState E}

theorem Entered.set (entered : Entered world heap label) (isEntered : thunk.Entered) : Entered world (heap.set index thunk) label := by
  obtain ⟨found, before, there, isThere, wasEntered⟩ := entered
  by_cases same : index = found
  · subst same
    have lt := (List.getElem?_eq_some_iff.mp isThere).1
    exact ⟨index, thunk, there, List.getElem?_set_self lt, isEntered⟩
  · exact ⟨found, before, there, by rw [List.getElem?_set_ne same]; exact isThere, wasEntered⟩

theorem Entered.append (entered : Entered world heap label) (grown : world ≤ world') : Entered world' (heap ++ heap') label := by
  obtain ⟨found, before, there, isThere, wasEntered⟩ := entered
  refine ⟨found, before, there.mono grown, ?_, wasEntered⟩
  rw [List.getElem?_append_left (List.getElem?_eq_some_iff.mp isThere).1]
  exact isThere

variable {allowed : Event → Prop} {busy : List ℕ} {state : State E}

namespace Sound

theorem exists_thunk (sound : Sound host allowed busy world state) (there : world.At index label) :
    ∃ thunk, state.heap[index]? = some thunk ∧ Fits host world label thunk := by
  have lt : index < state.heap.length := by rw [sound.length]; exact there.lt
  have found := List.getElem?_eq_getElem lt
  exact ⟨_, found, sound.fits index label _ there found⟩

/-- What stands for a suspended stream or decision has not been entered anywhere else. -/
theorem not_entered (sound : Sound host allowed busy world state) (isShared : label.Shared) (there : world.At index label)
    {suspension : Suspension} (suspended : state.heap[index]? = some (.suspended suspension)) : ¬Entered world state.heap label := by
  rintro ⟨found, thunk, there', isThere, entered⟩
  cases sound.shared found index label isShared there' there
  cases suspended.symm.trans isThere
  exact entered

theorem set (sound : Sound host allowed busy world state) (there : world.At index label) (fits : Fits host world label thunk)
    (entered : thunk.Entered) {busy' : List ℕ}
    (idle : ∀ other, (state.heap.set index thunk)[other]? = some .evaluating → other ∈ busy') :
    Sound host allowed busy' world (state.set index thunk) where
  once := sound.once
  allowed := sound.allowed
  length := by rw [State.set, List.length_set]; exact sound.length
  fits other label' thunk' there' isThere := by
    rw [State.set, List.getElem?_set] at isThere
    split_ifs at isThere with same lt
    · subst same
      cases there.unique there'
      cases isThere
      exact fits
    · exact sound.fits other label' thunk' there' isThere
  idle := idle
  shared := sound.shared
  grounded position other made := (sound.grounded position other made).set entered
  decided position applied := (sound.decided position applied).set entered

theorem enter (sound : Sound host allowed busy world state) (there : world.At index label) :
    Sound host allowed (index :: busy) world (state.set index .evaluating) := by
  refine sound.set there (.evaluating label) trivial fun other evaluating => ?_
  rw [List.getElem?_set] at evaluating
  split_ifs at evaluating with same lt
  · exact List.mem_cons.mpr (.inl same.symm)
  · exact List.mem_cons_of_mem _ (sound.idle other evaluating)

theorem settle (sound : Sound host allowed (index :: busy) world state) (there : world.At index label)
    (fits : Fits host world label thunk) (settled : thunk.Settled) : Sound host allowed busy world (state.set index thunk) := by
  refine sound.set there fits settled.entered fun other evaluating => ?_
  rw [List.getElem?_set] at evaluating
  split_ifs at evaluating with same lt
  · cases evaluating
    exact settled.elim
  · exact (List.mem_cons.mp (sound.idle other evaluating)).resolve_left fun same' => same same'.symm

theorem recordCell (sound : Sound host allowed busy world state) {position : ℕ} (forced : allowed (.cell position)) :
    Sound host allowed busy world { state with log := state.log ++ [.cell position] } where
  once other := by simpa using sound.once other
  allowed event member := by
    rcases List.mem_append.mp member with before | last
    · exact sound.allowed event before
    · cases List.mem_singleton.mp last
      exact forced
  length := sound.length
  fits := sound.fits
  idle := sound.idle
  shared := sound.shared
  grounded := sound.grounded
  decided other applied := sound.decided other (by simpa using applied)

theorem recordApplied (sound : Sound host allowed busy world state) {position : ℕ} (forced : allowed (.applied position))
    (fresh : .applied position ∉ state.log) (entered : Entered world state.heap (.decision position)) :
    Sound host allowed busy world { state with log := state.log ++ [.applied position] } where
  once other := by
    by_cases same : other = position
    · subst same
      simp [List.count_eq_zero_of_not_mem fresh]
    · have different : ¬Event.applied position = .applied other := fun equal => same (Event.applied.inj equal).symm
      simpa [List.count_singleton, different] using sound.once other
  allowed event member := by
    rcases List.mem_append.mp member with before | last
    · exact sound.allowed event before
    · cases List.mem_singleton.mp last
      exact forced
  length := sound.length
  fits := sound.fits
  idle := sound.idle
  shared := sound.shared
  grounded := sound.grounded
  decided other applied := by
    rcases List.mem_append.mp applied with before | last
    · exact sound.decided other before
    · cases List.mem_singleton.mp last
      exact entered

theorem append (sound : Sound host allowed busy world state) {labels : List Label} {thunks : List (ThunkState E)}
    (fits : List.Forall₂ (Fits host (world.push labels)) labels thunks) (idle : .evaluating ∉ thunks)
    (fresh : ∀ label ∈ labels, label.Shared → ∀ index, ¬world.At index label)
    (once : labels.Nodup)
    (grounded : ∀ position, .decision position ∈ labels ∨ .stream (position + 1) ∈ labels → Entered world state.heap (.stream position)) :
    Sound host allowed busy (world.push labels) { state with heap := state.heap ++ thunks } where
  once := sound.once
  allowed := sound.allowed
  length := by
    simp only [World.push, List.length_append, sound.length, fits.length_eq]
  fits index label thunk there isThere := by
    rw [List.getElem?_append] at isThere
    split_ifs at isThere with lt
    · have before : world.At index label := (World.at_push.mp there).resolve_right fun after => by
        have := sound.length
        omega
      exact (sound.fits index label thunk before isThere).mono (world.le_push labels)
    · rcases World.at_push.mp there with before | ⟨-, found⟩
      · exact absurd (sound.length ▸ before.lt) lt
      · rw [sound.length] at isThere
        obtain ⟨inLabels, isLabel⟩ := List.getElem?_eq_some_iff.mp found
        obtain ⟨inThunks, isThunk⟩ := List.getElem?_eq_some_iff.mp isThere
        have each := fits.get inLabels inThunks
        rw [List.get_eq_getElem, List.get_eq_getElem] at each
        rw [← isLabel, ← isThunk]
        exact each
  idle index evaluating := by
    rw [List.getElem?_append] at evaluating
    split_ifs at evaluating
    · exact sound.idle index evaluating
    · exact absurd (List.mem_of_getElem? evaluating) idle
  shared index index' label isShared there there' := by
    rcases World.at_push.mp there with before | ⟨le, found⟩
    · rcases World.at_push.mp there' with before' | ⟨-, found'⟩
      · exact sound.shared index index' label isShared before before'
      · exact absurd before (fresh label (List.mem_of_getElem? found') isShared index)
    · rcases World.at_push.mp there' with before' | ⟨le', found'⟩
      · exact absurd before' (fresh label (List.mem_of_getElem? found) isShared index')
      · have same := (List.getElem?_inj (List.getElem?_eq_some_iff.mp found).1 once).mp (found.trans found'.symm)
        omega
  grounded position index made := by
    rcases made with isDecision | isStream
    · rcases World.at_push.mp isDecision with before | ⟨-, found⟩
      · exact (sound.grounded position index (.inl before)).append (world.le_push labels)
      · exact (grounded position (.inl (List.mem_of_getElem? found))).append (world.le_push labels)
    · rcases World.at_push.mp isStream with before | ⟨-, found⟩
      · exact (sound.grounded position index (.inr before)).append (world.le_push labels)
      · exact (grounded position (.inr (List.mem_of_getElem? found))).append (world.le_push labels)
  decided position applied := (sound.decided position applied).append (world.le_push labels)

theorem weaken (sound : Sound host allowed busy world state) {allowed' : Event → Prop} (weaker : ∀ event, allowed event → allowed' event) :
    Sound host allowed' busy world state where
  once := sound.once
  allowed event member := weaker event (sound.allowed event member)
  length := sound.length
  fits := sound.fits
  idle := sound.idle
  shared := sound.shared
  grounded := sound.grounded
  decided := sound.decided

end Sound

end Changes

/-! ## Forcing a thunk -/

section Runs

variable {fuel index position : ℕ} {state : State E}

theorem get_bind {α : Type} (next : State E → Run E α) : (get >>= next) state = next state state := rfl

theorem force_suspended {suspension : Suspension} (found : state.heap[index]? = some (.suspended suspension)) :
    force host (fuel + 1) (.thunk index) state = enter index (suspension.evaluate host (force host fuel) fuel) state := by
  rw [force, get_bind, found]

theorem force_evaluated {value : Value} (found : state.heap[index]? = some (.evaluated value)) :
    force host (fuel + 1) (.thunk index) state = (.ok value, state) := by
  rw [force, get_bind, found]
  rfl

theorem force_failed {error : RuntimeError E} (found : state.heap[index]? = some (.failed error)) :
    force host (fuel + 1) (.thunk index) state = (.error (.failed error), state) := by
  rw [force, get_bind, found]
  rfl

/-- What becomes of an outcome of the host. -/
def Outcome.ends {α : Type} (value : α → Except (Stop E) Value) : Outcome E α → Except (Stop E) Value
  | .value result => value result
  | .failed error => .error (.failed (.guest error))
  | .never => .error .pending

def InputCell.value (position : ℕ) : InputCell → Value
  | .nil => .list .nil
  | .cons => .list (.cons (.item position) (.cell (position + 1)))

theorem forceCell_run : forceCell host position state =
    ((host.cell position).ends fun cell => .ok (cell.value position), { state with log := state.log ++ [.cell position] }) := by
  rw [forceCell]
  cases host.cell position with
  | value cell => cases cell <;> rfl
  | failed => rfl
  | never => rfl

theorem applyClassifier_run : applyClassifier host (.item position) state =
    ((host.decision position).ends fun decision => .ok (.bool decision), { state with log := state.log ++ [.applied position] }) := by
  rw [applyClassifier]
  cases host.decision position <;> rfl

/-- What is made for an element. -/
def madeFor (position : ℕ) (operation : String) (length : ℕ) : List (ThunkState E) :=
  [.suspended (.apply (.item position)), .evaluated (.tuple [.thunk length, .item position, .cell position]),
    .suspended (.classify (.cell (position + 1)) operation)]

theorem classify_run (operation : String) : classify (force host (fuel + 1)) (.cell position) operation state =
    match host.cell position with
    | .value .nil => (.ok (.list .nil), { state with log := state.log ++ [.cell position] })
    | .value .cons => (.ok (.list (.cons (.thunk (state.heap.length + 1)) (.thunk (state.heap.length + 2)))),
        ⟨state.heap ++ madeFor position operation state.heap.length, state.log ++ [.cell position]⟩)
    | .failed error => (.error (.failed (.guest error)), { state with log := state.log ++ [.cell position] })
    | .never => (.error .pending, { state with log := state.log ++ [.cell position] }) := by
  rw [classify]
  simp only [Bind.bind, ExceptT.bind, ExceptT.mk, StateT.bind, force, forceCell_run]
  cases host.cell position with
  | value cell =>
    cases cell with
    | nil => rfl
    | cons =>
      let heap := state.heap ++ [.suspended (.apply (.item position))]
      let heap' := heap ++ [.evaluated (.tuple [.thunk state.heap.length, .item position, .cell position])]
      change (Except.ok (Value.list (.cons (.thunk heap.length) (.thunk heap'.length))),
        State.mk (heap' ++ [.suspended (.classify (.cell (position + 1)) operation)]) (state.log ++ [.cell position])) = _
      simp [heap, heap', madeFor]
  | failed => rfl
  | never => rfl

end Runs

/-- What holds when a computation stops: it has failed as the reference has, or its fuel was too little. -/
def Stops (host : Host E) (allowed : Event → Prop) (busy : List ℕ) (world : World) (fails : E → Prop) (slow : Prop) :
    Stop E → State E → Prop
  | .failed (.guest error), state => (∃ world', world ≤ world' ∧ Sound host allowed busy world' state) ∧ fails error
  | .failed _, _ => False
  | .pending, state => Logged allowed state ∧ slow

theorem Stops.mono {allowed : Event → Prop} {busy : List ℕ} {world world' : World} {fails fails' : E → Prop} {slow slow' : Prop}
    (grown : world ≤ world') (failed : ∀ error, fails error → fails' error) (slowed : slow → slow') (stop : Stop E) (state : State E)
    (stops : Stops host allowed busy world' fails slow stop state) : Stops host allowed busy world fails' slow' stop state := by
  rcases stop with (error | message | _) | _
  · obtain ⟨⟨world'', grown', sound⟩, fails⟩ := stops
    exact ⟨⟨world'', grown.trans grown', sound⟩, failed error fails⟩
  · exact stops
  · exact stops
  · exact ⟨stops.1, slowed stops.2⟩

section Shared

variable {allowed : Event → Prop} {busy : List ℕ} {world : World} {fuel index position : ℕ}

/-- A cell of the stream. -/
theorem grows_stream (there : world.At index (.stream position)) (parts : ∀ other ∈ busy, ∃ list, world.At other (.part list))
    (forced : allowed (.cell position)) : Grows (Sound host allowed busy) world (force host fuel (.thunk index))
      (fun world' value => StreamCell host world' position value)
      (Stops host allowed busy world (fun error => host.cell position = .failed error) (fuel < 2 ∨ host.cell position = .never)) := by
  intro state sound
  cases fuel with
  | zero => exact ⟨sound.toLogged, .inl (by omega)⟩
  | succ fuel =>
    obtain ⟨thunk, found, fits⟩ := sound.exists_thunk there
    cases fits with
    | evaluating =>
      obtain ⟨list, isPart⟩ := parts index (sound.idle index found)
      cases there.unique isPart
    | @stream _ value cell =>
      rw [force_evaluated found]
      exact ⟨world, le_refl world, sound, cell⟩
    | failedStream failed =>
      rw [force_failed found]
      exact ⟨⟨world, le_refl world, sound⟩, failed⟩
    | suspendedStream _ operation =>
      rw [force_suspended found]
      have entered := sound.enter there
      cases fuel with
      | zero => exact ⟨entered.toLogged, .inl (by omega)⟩
      | succ fuel =>
        have recorded := entered.recordCell forced
        rw [enter, Suspension.evaluate, classify_run]
        cases outcome : host.cell position with
        | never => exact ⟨recorded.toLogged, .inr rfl⟩
        | failed error => exact ⟨⟨world, le_refl world, recorded.settle there (.failedStream outcome) trivial⟩, rfl⟩
        | value cell =>
          cases cell with
          | nil => exact ⟨world, le_refl world, recorded.settle there (.stream (.nil outcome)) trivial, .nil outcome⟩
          | cons =>
            have isNew := sound.not_entered (.stream position) there found
            have noDecision : ∀ other, ¬world.At other (.decision position) := fun other made =>
              isNew (sound.grounded position other (.inl made))
            have noStream : ∀ other, ¬world.At other (.stream (position + 1)) := fun other made =>
              isNew (sound.grounded position other (.inr made))
            let world' := world.push [.decision position, .entry position, .stream (position + 1)]
            have grown : world ≤ world' := world.le_push _
            have length : (state.set index .evaluating).heap.length = world.labels.length := entered.length
            have isDecision : world'.At world.labels.length (.decision position) := World.at_push.mpr (.inr ⟨le_refl _, by simp⟩)
            have isEntry : world'.At (world.labels.length + 1) (.entry position) := World.at_push.mpr (.inr ⟨by omega, by simp⟩)
            have isStream : world'.At (world.labels.length + 2) (.stream (position + 1)) := World.at_push.mpr (.inr ⟨by omega, by simp⟩)
            have appended := @Sound.append _ _ _ _ _ _ recorded [.decision position, .entry position, .stream (position + 1)]
              (madeFor position operation world.labels.length)
              (.cons (.suspendedDecision position) (.cons (.entry isDecision) (.cons (.suspendedStream _ operation) .nil)))
              (by simp [madeFor]) ?_ (by simp) ?_
            · have cell : StreamCell host world' position (.list (.cons (.thunk (world.labels.length + 1)) (.thunk (world.labels.length + 2)))) :=
                .cons outcome isEntry isStream
              have settled := appended.settle (there.mono grown) (.stream cell) trivial
              dsimp only
              rw [length]
              exact ⟨world', grown, settled, cell⟩
            · intro label member isShared other made
              simp only [List.mem_cons, List.not_mem_nil, or_false] at member
              rcases member with rfl | rfl | rfl
              · exact noDecision other made
              · cases isShared
              · exact noStream other made
            · intro other made
              have same : other = position := by simpa using made
              subst same
              exact ⟨index, .evaluating, there, List.getElem?_set_self (List.getElem?_eq_some_iff.mp found).1, trivial⟩

/-- A decision. -/
theorem grows_decision (there : world.At index (.decision position)) (parts : ∀ other ∈ busy, ∃ list, world.At other (.part list))
    (forced : allowed (.applied position)) : Grows (Sound host allowed busy) world (force host fuel (.thunk index))
      (fun _ value => ∃ decision, host.decision position = .value decision ∧ value = .bool decision)
      (Stops host allowed busy world (fun error => host.decision position = .failed error)
        (fuel < 2 ∨ host.decision position = .never)) := by
  intro state sound
  cases fuel with
  | zero => exact ⟨sound.toLogged, .inl (by omega)⟩
  | succ fuel =>
    obtain ⟨thunk, found, fits⟩ := sound.exists_thunk there
    cases fits with
    | evaluating =>
      obtain ⟨list, isPart⟩ := parts index (sound.idle index found)
      cases there.unique isPart
    | @decision _ decision decided =>
      rw [force_evaluated found]
      exact ⟨world, le_refl world, sound, decision, decided, rfl⟩
    | failedDecision failed =>
      rw [force_failed found]
      exact ⟨⟨world, le_refl world, sound⟩, failed⟩
    | suspendedDecision =>
      rw [force_suspended found, enter, Suspension.evaluate, applyClassifier_run]
      have entered := sound.enter there
      have isEntered : Entered world (state.set index .evaluating).heap (.decision position) :=
        ⟨index, .evaluating, there, List.getElem?_set_self (List.getElem?_eq_some_iff.mp found).1, trivial⟩
      have isNew : .applied position ∉ state.log := fun applied =>
        sound.not_entered (.decision position) there found (sound.decided position applied)
      have recorded := entered.recordApplied forced isNew isEntered
      cases outcome : host.decision position with
      | never => exact ⟨recorded.toLogged, .inr rfl⟩
      | failed error => exact ⟨⟨world, le_refl world, recorded.settle there (.failedDecision outcome) trivial⟩, rfl⟩
      | value decision => exact ⟨world, le_refl world, recorded.settle there (.decision outcome) trivial, decision, rfl, rfl⟩

theorem grows_forceClassified (there : world.At index (.entry position)) (parts : ∀ other ∈ busy, ∃ list, world.At other (.part list))
    (operation : String) (fails : E → Prop) :
    Grows (Sound host allowed busy) world (forceClassified (force host fuel) (.thunk index) operation)
      (fun world' found => ∃ decision, found = (.thunk decision, .item position, .cell position) ∧ world'.At decision (.decision position))
      (Stops host allowed busy world fails (fuel < 2)) := by
  intro state sound
  cases fuel with
  | zero => exact ⟨sound.toLogged, by omega⟩
  | succ fuel =>
    obtain ⟨thunk, found, fits⟩ := sound.exists_thunk there
    cases fits with
    | evaluating =>
      obtain ⟨list, isPart⟩ := parts index (sound.idle index found)
      cases there.unique isPart
    | @entry _ decision isDecision =>
      rw [forceClassified]
      simp only [Bind.bind, ExceptT.bind, ExceptT.mk, StateT.bind, force_evaluated found]
      exact ⟨world, le_refl world, sound, decision, rfl, isDecision⟩

theorem grows_cell (element : host.cell position = .value .cons) (forced : allowed (.cell position)) (fails : E → Prop) :
    Grows (Sound host allowed busy) world (force host fuel (.cell position))
      (fun _ value => value = .list (.cons (.item position) (.cell (position + 1)))) (Stops host allowed busy world fails (fuel < 2)) := by
  intro state sound
  cases fuel with
  | zero => exact ⟨sound.toLogged, by omega⟩
  | succ fuel =>
    rw [force, forceCell_run, element]
    exact ⟨world, le_refl world, sound.recordCell forced, rfl⟩

theorem grows_allocate (consumer : Consumer) (there : world.At index (.stream position)) (operation : String)
    (stops : Stop E → State E → Prop) : Grows (Sound host allowed busy) world
      (allocate (.suspended (.consume consumer (.thunk index) operation))) (fun world' ref => Means world' ref (consumer.reference position))
      stops := by
  intro state sound
  let world' := world.push [.part (consumer.reference position)]
  have grown : world ≤ world' := world.le_push _
  have isPart : world'.At state.heap.length (.part (consumer.reference position)) :=
    World.at_push.mpr (.inr ⟨sound.length.symm.le, by simp [sound.length]⟩)
  refine ⟨world', grown, @Sound.append _ _ _ _ _ _ sound [.part (consumer.reference position)]
    [.suspended (.consume consumer (.thunk index) operation)] (.cons (.suspendedPart consumer (there.mono grown) operation) .nil)
    (by simp) ?_ (by simp) ?_, .thunk isPart⟩
  · intro label member isShared
    cases List.mem_singleton.mp member
    cases isShared
  · intro other made
    simp at made

/-- What the consumers have in common: the next cell of the stream is classified, and the rest is up to them. -/
def turn (force : ThunkRef → Run E Value) (classified : ThunkRef) (operation : String)
    (next : Bool → ThunkRef → ThunkRef → ThunkRef → Run E Value) : Run E Value := do
  match ← force classified with
  | .list .nil => return .list .nil
  | .list (.cons head tail) => do
    let (decision, item, original) ← forceClassified force head operation
    let accepted ← forceBool force decision
    next accepted item original tail
  | _ => nonList operation

section Turns

variable (force : ThunkRef → Run E Value) (classified : ThunkRef) (wanted : Bool) (operation : String) (turns : ℕ)

theorem takeClass_eq : takeClass force classified wanted operation = turn force classified operation fun accepted item _ tail =>
    if accepted = wanted then do
      return .list (.cons item (← allocate (.suspended (.consume (.takeClass wanted) tail operation))))
    else return .list .nil := rfl

theorem dropClass_succ : dropClass force (turns + 1) classified wanted operation = turn force classified operation
    fun accepted _ original tail => if accepted ≠ wanted then force original else dropClass force turns tail wanted operation := rfl

theorem selectClass_succ : selectClass force (turns + 1) classified wanted operation = turn force classified operation
    fun accepted item _ tail =>
      if accepted = wanted then do
        return .list (.cons item (← allocate (.suspended (.consume (.selectClass wanted) tail operation))))
      else selectClass force turns tail wanted operation := rfl

end Turns

theorem grows_turn {post : World → Value → Prop} {fails : E → Prop} {slow : Prop} {operation : String}
    {next : Bool → ThunkRef → ThunkRef → ThunkRef → Run E Value} (there : world.At index (.stream position))
    (parts : ∀ other ∈ busy, ∃ list, world.At other (.part list)) (forcedCell : allowed (.cell position))
    (forcedDecision : host.cell position = .value .cons → allowed (.applied position))
    (ends : host.classified position = .value none → ∀ world', post world' (.list .nil))
    (continues : ∀ world', world ≤ world' → ∀ accepted, host.classified position = .value (some accepted) →
      ∀ rest, world'.At rest (.stream (position + 1)) →
      Grows (Sound host allowed busy) world' (next accepted (.item position) (.cell position) (.thunk rest)) post
        (Stops host allowed busy world fails slow))
    (failed : ∀ error, host.classified position = .failed error → fails error) (short : fuel < 2 → slow)
    (never : host.classified position = .never → slow) :
    Grows (Sound host allowed busy) world (turn (force host fuel) (.thunk index) operation next) post
      (Stops host allowed busy world fails slow) := by
  refine Grows.bind ((grows_stream there parts forcedCell).mono (fun _ _ _ => id) (Stops.mono (le_refl world) ?_ ?_)) ?_
  · exact fun error failedCell => failed error (by rw [Host.classified, failedCell])
  · rintro (isShort | isNever)
    · exact short isShort
    · exact never (by rw [Host.classified, isNever])
  intro world' grown value cell
  cases cell with
  | nil isEnd => exact Grows.pure (ends (by rw [Host.classified, isEnd]) world')
  | @cons entry rest element isEntry isStream =>
    have parts' : ∀ other ∈ busy, ∃ list, world'.At other (.part list) := fun other member =>
      (parts other member).imp fun _ isPart => isPart.mono grown
    refine Grows.bind ((grows_forceClassified isEntry parts' operation fails).mono (fun _ _ _ => id) (Stops.mono grown (fun _ => id) short)) ?_
    rintro world'' grown' _ ⟨decision, rfl, isDecision⟩
    have parts'' : ∀ other ∈ busy, ∃ list, world''.At other (.part list) := fun other member =>
      (parts' other member).imp fun _ isPart => isPart.mono grown'
    have decides : Grows (Sound host allowed busy) world'' (forceBool (force host fuel) (.thunk decision))
        (fun _ accepted => host.decision position = .value accepted) (Stops host allowed busy world fails slow) := by
      refine Grows.bind ((grows_decision isDecision parts'' (forcedDecision element)).mono (fun _ _ _ => id)
        (Stops.mono (grown.trans grown') ?_ ?_)) ?_
      · exact fun error failedDecision => failed error (by rw [Host.classified, element]; dsimp only; rw [failedDecision])
      · rintro (isShort | isNever)
        · exact short isShort
        · exact never (by rw [Host.classified, element]; dsimp only; rw [isNever])
      · rintro _ _ _ ⟨accepted, decided, rfl⟩
        exact Grows.pure decided
    refine decides.bind fun world''' grown'' accepted decided => ?_
    have found : host.classified position = .value (some accepted) := by rw [Host.classified, element]; dsimp only; rw [decided]
    exact continues world''' ((grown.trans grown').trans grown'') accepted found rest ((isStream.mono grown').mono grown'')

end Shared

/-! ## Lists -/

/-- A value stands for the cell that a list evaluates to. -/
def Answers (host : Host E) (list : Lazy) (world : World) (value : Value) : Prop :=
  ∃ cell, host.Evaluates list cell ∧ Represents world cell value

/-- The reference fails, or does not answer within the fuel. -/
abbrev StopsAt (host : Host E) (allowed : Event → Prop) (busy : List ℕ) (world : World) (list : Lazy) (fuel turns : ℕ) :
    Stop E → State E → Prop :=
  Stops host allowed busy world (fun error => host.Evaluates list (.failed error)) (fuel < 2 ∨ host.whnf turns list = none)

section Lists

variable {allowed : Event → Prop} {busy : List ℕ} {world : World} {fuel index position : ℕ}

theorem grows_takeClass (wanted : Bool) (operation : String) (turns : ℕ) (there : world.At index (.stream position))
    (parts : ∀ other ∈ busy, ∃ list, world.At other (.part list))
    (forced : ∀ event, host.Forces (.takeWhile wanted position) event → allowed event) :
    Grows (Sound host allowed busy) world (takeClass (force host fuel) (.thunk index) wanted operation)
      (Answers host (.takeWhile wanted position)) (StopsAt host allowed busy world (.takeWhile wanted position) fuel turns) := by
  rw [takeClass_eq]
  refine grows_turn there parts (forced _ (.cell (.takeClass wanted) position)) (fun element => forced _ (.decision (.takeClass wanted) element))
    ?_ ?_ ?_ .inl ?_
  · exact fun isEnd _ => ⟨.nil, ⟨1, by simp only [Host.whnf, isEnd]⟩, .nil⟩
  · intro world' grown accepted decided rest isStream
    split
    next accept =>
      refine (grows_allocate (.takeClass wanted) isStream operation _).bind fun world'' _ tail means => Grows.pure ?_
      exact ⟨_, ⟨1, by simp only [Host.whnf, decided, if_pos accept, Consumer.reference]⟩, .cons means⟩
    next reject => exact Grows.pure ⟨.nil, ⟨1, by simp only [Host.whnf, decided, if_neg reject]⟩, .nil⟩
  · exact fun error failed => ⟨1, by simp only [Host.whnf, failed]⟩
  · intro isNever
    right
    cases turns with
    | zero => rfl
    | succ turns => simp only [Host.whnf, isNever]

theorem grows_dropClass (wanted : Bool) (operation : String) (turns : ℕ) (there : world.At index (.stream position))
    (parts : ∀ other ∈ busy, ∃ list, world.At other (.part list))
    (forced : ∀ event, host.Forces (.dropWhile wanted position) event → allowed event) :
    Grows (Sound host allowed busy) world (dropClass (force host fuel) turns (.thunk index) wanted operation)
      (Answers host (.dropWhile wanted position)) (StopsAt host allowed busy world (.dropWhile wanted position) fuel turns) := by
  induction turns generalizing world index position with
  | zero => exact Grows.throw fun state sound => ⟨sound.toLogged, .inr rfl⟩
  | succ turns ih =>
    rw [dropClass_succ]
    refine grows_turn there parts (forced _ (.cell (.dropClass wanted) position))
      (fun element => forced _ (.decision (.dropClass wanted) element)) ?_ ?_ ?_ .inl ?_
    · exact fun isEnd _ => ⟨.nil, ⟨1, by simp only [Host.whnf, isEnd]⟩, .nil⟩
    · intro world' grown accepted decided rest isStream
      split
      next reject =>
        have element : host.cell position = .value .cons := by
          rw [Host.classified] at decided
          split at decided
          · cases decided
          · assumption
          · cases decided
          · cases decided
        refine (grows_cell element (forced _ (.cell (.dropClass wanted) position)) _).mono ?_ (Stops.mono grown (fun _ => id) .inl)
        rintro world'' _ _ rfl
        exact ⟨_, ⟨1, by simp only [Host.whnf, decided, if_neg reject]⟩, .cons (.cell (position + 1))⟩
      next accept =>
        have accept : accepted = wanted := not_not.mp accept
        subst accept
        have skips : ∀ turns, host.whnf (turns + 1) (.dropWhile accepted position) = host.whnf turns (.dropWhile accepted (position + 1)) :=
          fun turns => by simp only [Host.whnf, decided, ↓reduceIte]
        have rest := ih isStream (fun other member => (parts other member).imp fun _ isPart => isPart.mono grown)
          fun event forces => forced event (.dropped decided forces)
        refine rest.mono ?_ (Stops.mono grown ?_ ?_)
        · rintro world'' _ value ⟨cell, ⟨more, evaluates⟩, represents⟩
          exact ⟨cell, ⟨more + 1, (skips more).trans evaluates⟩, represents⟩
        · rintro error ⟨more, evaluates⟩
          exact ⟨more + 1, (skips more).trans evaluates⟩
        · exact Or.imp id (skips turns).trans
    · exact fun error failed => ⟨1, by simp only [Host.whnf, failed]⟩
    · exact fun isNever => .inr (by simp only [Host.whnf, isNever])

theorem grows_selectClass (wanted : Bool) (operation : String) (turns : ℕ) (there : world.At index (.stream position))
    (parts : ∀ other ∈ busy, ∃ list, world.At other (.part list))
    (forced : ∀ event, host.Forces (.filter wanted position) event → allowed event) :
    Grows (Sound host allowed busy) world (selectClass (force host fuel) turns (.thunk index) wanted operation)
      (Answers host (.filter wanted position)) (StopsAt host allowed busy world (.filter wanted position) fuel turns) := by
  induction turns generalizing world index position with
  | zero => exact Grows.throw fun state sound => ⟨sound.toLogged, .inr rfl⟩
  | succ turns ih =>
    rw [selectClass_succ]
    refine grows_turn there parts (forced _ (.cell (.selectClass wanted) position))
      (fun element => forced _ (.decision (.selectClass wanted) element)) ?_ ?_ ?_ .inl ?_
    · exact fun isEnd _ => ⟨.nil, ⟨1, by simp only [Host.whnf, isEnd]⟩, .nil⟩
    · intro world' grown accepted decided rest isStream
      split
      next accept =>
        refine (grows_allocate (.selectClass wanted) isStream operation _).bind fun world'' _ tail means => Grows.pure ?_
        exact ⟨_, ⟨1, by simp only [Host.whnf, decided, if_pos accept, Consumer.reference]⟩, .cons means⟩
      next reject =>
        have skips : ∀ turns, host.whnf (turns + 1) (.filter wanted position) = host.whnf turns (.filter wanted (position + 1)) :=
          fun turns => by simp only [Host.whnf, decided, if_neg reject]
        have rest := ih isStream (fun other member => (parts other member).imp fun _ isPart => isPart.mono grown)
          fun event forces => forced event (.filtered decided reject forces)
        refine rest.mono ?_ (Stops.mono grown ?_ ?_)
        · rintro world'' _ value ⟨cell, ⟨more, evaluates⟩, represents⟩
          exact ⟨cell, ⟨more + 1, (skips more).trans evaluates⟩, represents⟩
        · rintro error ⟨more, evaluates⟩
          exact ⟨more + 1, (skips more).trans evaluates⟩
        · exact Or.imp id (skips turns).trans
    · exact fun error failed => ⟨1, by simp only [Host.whnf, failed]⟩
    · exact fun isNever => .inr (by simp only [Host.whnf, isNever])

theorem grows_consume (consumer : Consumer) (operation : String) (there : world.At index (.stream position))
    (parts : ∀ other ∈ busy, ∃ list, world.At other (.part list))
    (forced : ∀ event, host.Forces (consumer.reference position) event → allowed event) :
    Grows (Sound host allowed busy) world ((Suspension.consume consumer (.thunk index) operation).evaluate host (force host fuel) fuel)
      (Answers host (consumer.reference position)) (StopsAt host allowed busy world (consumer.reference position) fuel fuel) := by
  cases consumer with
  | takeClass wanted => exact grows_takeClass wanted operation fuel there parts forced
  | dropClass wanted => exact grows_dropClass wanted operation fuel there parts forced
  | selectClass wanted => exact grows_selectClass wanted operation fuel there parts forced

/-- A list that is forced from outside. -/
theorem grows_part {list : Lazy} (there : world.At index (.part list)) (forced : ∀ event, host.Forces list event → allowed event) :
    Grows (Sound host allowed []) world (force host (fuel + 1) (.thunk index)) (Answers host list)
      (StopsAt host allowed [] world list fuel fuel) := by
  intro state sound
  obtain ⟨thunk, found, fits⟩ := sound.exists_thunk there
  cases fits with
  | evaluating => cases sound.idle index found
  | @part _ cell value evaluates represents =>
    rw [force_evaluated found]
    exact ⟨world, le_refl world, sound, cell, evaluates, represents⟩
  | failedPart evaluates =>
    rw [force_failed found]
    exact ⟨⟨world, le_refl world, sound⟩, evaluates⟩
  | @suspendedPart consumer position classified isStream operation =>
    rw [force_suspended found, enter]
    have parts : ∀ other ∈ [index], ∃ list, world.At other (.part list) := fun other member => by
      cases List.mem_singleton.mp member
      exact ⟨_, there⟩
    have ended := @grows_consume _ _ _ _ _ fuel _ _ consumer operation isStream parts forced _ (sound.enter there)
    generalize (Suspension.consume consumer (.thunk classified) operation).evaluate host (force host fuel) fuel (state.set index .evaluating) =
      outcome at ended ⊢
    rcases outcome with ⟨(error | _) | value, state'⟩
    · rcases error with error | message | _
      · obtain ⟨⟨world', grown, after⟩, evaluates⟩ := ended
        exact ⟨⟨world', grown, after.settle (there.mono grown) (.failedPart evaluates) trivial⟩, evaluates⟩
      · exact ended
      · exact ended
    · exact ended
    · obtain ⟨world', grown, after, cell, evaluates, represents⟩ := ended
      exact ⟨world', grown, after.settle (there.mono grown) (.part evaluates represents) trivial, cell, evaluates, represents⟩

/-- A list that another list ends with, or one that is built. -/
theorem grows_means {ref : ThunkRef} {list : Lazy} (means : Means world ref list) (forced : ∀ event, host.Forces list event → allowed event) :
    Grows (Sound host allowed []) world (force host (fuel + 1) ref) (Answers host list) (StopsAt host allowed [] world list fuel fuel) := by
  cases means with
  | thunk isPart => exact grows_part isPart forced
  | cell position =>
    intro state sound
    have recorded := sound.recordCell (forced _ (.source position))
    rw [force, forceCell_run]
    cases outcome : host.cell position with
    | failed error => exact ⟨⟨world, le_refl world, recorded⟩, 1, by simp only [Host.whnf, outcome]⟩
    | never =>
      refine ⟨recorded.toLogged, .inr ?_⟩
      cases fuel with
      | zero => rfl
      | succ fuel => simp only [Host.whnf, outcome]
    | value cell =>
      cases cell with
      | nil => exact ⟨world, le_refl world, recorded, .nil, ⟨1, by simp only [Host.whnf, outcome]⟩, .nil⟩
      | cons => exact ⟨world, le_refl world, recorded, _, ⟨1, by simp only [Host.whnf, outcome]⟩, .cons (.cell (position + 1))⟩

/-- A value is what the reference shows at a depth. -/
def Shows (host : Host E) (list : Lazy) (depth : ℕ) (_ : World) (value : Value) : Prop :=
  ∃ answer, host.Sees list depth answer ∧ seen (.ok value : Except (Stop E) Value) = some answer

theorem grows_walk {ref : ThunkRef} {list : Lazy} {depth : ℕ} (means : Means world ref list)
    (forced : ∀ part event, host.Part list depth part → host.Forces part event → allowed event) :
    Grows (Sound host allowed []) world (walk host fuel depth ref) (Shows host list depth)
      (Stops host allowed [] world (fun error => host.Sees list depth (.failed error)) True) := by
  cases fuel with
  | zero => cases depth <;> exact Grows.throw fun state sound => ⟨sound.toLogged, trivial⟩
  | succ fuel =>
    induction depth generalizing world ref list with
    | zero =>
      refine (grows_means means fun event => forced list event (.here list 0)).mono ?_ (Stops.mono (le_refl world) (fun _ => .here) fun _ => trivial)
      rintro world' _ value ⟨cell, evaluates, represents⟩
      cases represents with
      | nil => exact ⟨.nil, .here evaluates, rfl⟩
      | @cons position => exact ⟨.cons position, .here evaluates, rfl⟩
    | succ depth ih =>
      refine Grows.bind ((grows_means means fun event => forced list event (.here list (depth + 1))).mono (fun _ _ _ => id)
        (Stops.mono (le_refl world) (fun _ evaluates => .failed depth evaluates) fun _ => trivial)) ?_
      rintro world' grown value ⟨cell, evaluates, represents⟩
      cases represents with
      | nil => exact Grows.pure ⟨.nil, .nil depth evaluates, rfl⟩
      | cons tail =>
        refine (ih tail fun part event isPart => forced part event (.tail evaluates isPart)).mono ?_
          (Stops.mono grown (fun _ sees => .tail evaluates sees) id)
        rintro world'' _ value ⟨answer, sees, same⟩
        exact ⟨answer, .tail evaluates sees, same⟩

/-- With enough fuel there is an answer when the reference has one. -/
theorem walk_returns {list : Lazy} {depth : ℕ} {answer : Seen E} (sees : host.Sees list depth answer) :
    ∃ enough, ∀ fuel ≥ enough, ∀ {allowed : Event → Prop} {world : World} {ref : ThunkRef} {state : State E}, Means world ref list →
      (∀ part event, host.Part list depth part → host.Forces part event → allowed event) → Sound host allowed [] world state →
      (walk host fuel depth ref state).1 ≠ .error .pending := by
  have forces {list : Lazy} {cell : Whnf E} (evaluates : host.Evaluates list cell) : ∃ enough, ∀ fuel ≥ enough,
      ∀ {allowed : Event → Prop} {world : World} {ref : ThunkRef} {state : State E}, Means world ref list →
      (∀ event, host.Forces list event → allowed event) → Sound host allowed [] world state →
      Ends (Sound host allowed []) world (Answers host list)
        (Stops host allowed [] world (fun error => host.Evaluates list (.failed error)) False) (force host fuel ref state) := by
    obtain ⟨turns, evaluates⟩ := evaluates
    refine ⟨turns + 3, fun fuel enough allowed world ref state means forced sound => ?_⟩
    obtain ⟨fuel, rfl⟩ : ∃ rest, fuel = rest + 1 := ⟨fuel - 1, by omega⟩
    refine (grows_means means forced).mono (fun _ _ _ => id) (Stops.mono (le_refl world) (fun _ => id) ?_) state sound
    rintro (isShort | isNone)
    · omega
    · have found := Host.whnf_mono (by omega : turns ≤ fuel) evaluates
      rw [isNone] at found
      cases found
  induction sees with
  | here evaluates =>
    obtain ⟨enough, ends⟩ := forces evaluates
    refine ⟨enough, fun fuel le allowed world ref state means forced sound pending => ?_⟩
    have ended := ends fuel le means (fun event => forced _ event (.here _ _)) sound
    rw [walk] at pending
    generalize force host fuel ref state = outcome at pending ended
    rcases outcome with ⟨_ | _, state'⟩
    · cases pending
      exact ended.2
    · cases pending
  | @tail _ tail position depth _ evaluates _ ih =>
    obtain ⟨enough, ends⟩ := forces evaluates
    obtain ⟨enough', returns⟩ := ih
    refine ⟨max enough enough', fun fuel le allowed world ref state means forced sound => ?_⟩
    have ended := ends fuel (le_trans (le_max_left ..) le) means (fun event => forced _ event (.here _ _)) sound
    rw [walk]
    simp only [Bind.bind, ExceptT.bind, ExceptT.mk, StateT.bind]
    generalize force host fuel ref state = outcome at ended
    rcases outcome with ⟨stop | value, state'⟩
    · intro pending
      cases pending
      exact ended.2
    · obtain ⟨world', grown, after, cell, evaluates', represents⟩ := ended
      cases evaluates.unique evaluates'
      cases represents with
      | cons means' =>
        exact returns fuel (le_trans (le_max_right ..) le) means' (fun part event isPart => forced part event (.tail evaluates isPart)) after
  | nil depth evaluates | failed depth evaluates =>
    obtain ⟨enough, ends⟩ := forces evaluates
    refine ⟨enough, fun fuel le allowed world ref state means forced sound => ?_⟩
    have ended := ends fuel le means (fun event => forced _ event (.here _ _)) sound
    rw [walk]
    simp only [Bind.bind, ExceptT.bind, ExceptT.mk, StateT.bind]
    generalize force host fuel ref state = outcome at ended
    rcases outcome with ⟨stop | value, state'⟩
    · intro pending
      cases pending
      exact ended.2
    · obtain ⟨world', grown, after, cell, evaluates', represents⟩ := ended
      cases evaluates.unique evaluates'
      cases represents <;> exact nofun

end Lists

/-! ## Demands in any order -/

/-- The reference forces something for a demand. -/
def Demanded (host : Host E) (consumers : List Consumer) (demands : List Demand) (event : Event) : Prop :=
  ∃ demand ∈ demands, ∃ consumer part, consumers[demand.consumer]? = some consumer ∧
    host.Part (consumer.reference 0) demand.depth part ∧ host.Forces part event

section Demands

variable {consumers : List Consumer} {operation : String} {demands : List Demand} {state : State E}

/-- The world of a split that nothing has been demanded of. -/
def World.split (consumers : List Consumer) : World := ⟨.stream 0 :: consumers.map fun consumer => .part (consumer.reference 0)⟩

theorem split_sound : Sound host (Demanded host consumers []) [] (World.split consumers) (split consumers operation) where
  once _ := Nat.zero_le 1
  allowed _ member := by cases member
  length := by simp [LazyList.split, World.split]
  fits index label thunk there found := by
    have isStream : (World.split consumers).At 0 (.stream 0) := rfl
    cases index with
    | zero =>
      cases there
      cases found
      exact .suspendedStream 0 operation
    | succ index =>
      simp only [World.At, World.split, LazyList.split, List.getElem?_cons_succ, List.getElem?_map, Option.map_eq_some_iff] at there found
      obtain ⟨consumer, isConsumer, rfl⟩ := there
      obtain ⟨consumer', isConsumer', rfl⟩ := found
      cases isConsumer.symm.trans isConsumer'
      exact .suspendedPart consumer isStream operation
  idle index found := by
    have member := List.mem_of_getElem? found
    simp [LazyList.split] at member
  shared index index' label isShared there there' := by
    have zero : ∀ {index : ℕ}, (World.split consumers).At index label → index = 0 := by
      intro index there
      cases index with
      | zero => rfl
      | succ index =>
        simp only [World.At, World.split, List.getElem?_cons_succ, List.getElem?_map, Option.map_eq_some_iff] at there
        obtain ⟨consumer, -, rfl⟩ := there
        cases isShared
    rw [zero there, zero there']
  grounded position index made := by
    rcases made with made | made <;> cases index <;>
      simp [World.At, World.split, List.getElem?_cons_succ, List.getElem?_map] at made
  decided _ applied := by cases applied

theorem Answered.sound (answered : Answered host consumers operation demands state) :
    ∃ world, Sound host (Demanded host consumers demands) [] world state ∧
      ∀ index consumer, consumers[index]? = some consumer → world.At (index + 1) (.part (consumer.reference 0)) := by
  induction answered with
  | start => exact ⟨_, split_sound, fun index consumer isConsumer => by simp [World.At, World.split, isConsumer]⟩
  | @demand demands state before demand isConsumer fuel returns ih =>
    obtain ⟨world, sound, parts⟩ := ih
    have isConsumer := List.getElem?_eq_getElem isConsumer
    have sound' : Sound host (Demanded host consumers (demands ++ [demand])) [] world state :=
      sound.weaken fun event ⟨other, member, there⟩ => ⟨other, List.mem_append_left _ member, there⟩
    have ended := @grows_walk _ _ _ _ fuel _ _ demand.depth (.thunk (parts _ _ isConsumer))
      (fun part event isPart forces => ⟨demand, by simp, _, part, isConsumer, isPart, forces⟩) state sound'
    rw [Demand.run] at returns ⊢
    generalize walk host fuel demand.depth (.thunk (demand.consumer + 1)) state = outcome at ended returns ⊢
    rcases outcome with ⟨(error | _) | value, state'⟩
    · rcases error with error | message | _
      · obtain ⟨⟨world', grown, after⟩, -⟩ := ended
        exact ⟨world', after, fun index consumer there => (parts index consumer there).mono grown⟩
      · exact ended.elim
      · exact ended.elim
    · exact absurd rfl returns
    · obtain ⟨world', grown, after, -⟩ := ended
      exact ⟨world', after, fun index consumer there => (parts index consumer there).mono grown⟩

/-- Whatever has been demanded before, the answers are those of the reference, which on a finite list is the prefix, the suffix or the
sublist, the classifier is applied once to an element at most, and nothing is forced that the reference does not force for the demands. -/
theorem lazy_split (answered : Answered host consumers operation demands state) (demand : Demand) {consumer : Consumer}
    (isConsumer : consumers[demand.consumer]? = some consumer) :
    (∀ fuel, (demand.run host fuel state).1 ≠ .error .pending →
      ∃ answer, seen (demand.run host fuel state).1 = some answer ∧ host.Sees (consumer.reference 0) demand.depth answer) ∧
    (∀ answer, host.Sees (consumer.reference 0) demand.depth answer →
      ∃ enough, ∀ fuel ≥ enough, seen (demand.run host fuel state).1 = some answer) ∧
    (∀ decisions, host = .ofList decisions → ∃ enough, ∀ fuel ≥ enough, seen (demand.run host fuel state).1 =
      some (Host.cellAt ((Host.sublist consumer decisions.zipIdx).map Prod.snd) demand.depth)) ∧
    ∀ fuel, (∀ position, (demand.run host fuel state).2.log.count (.applied position) ≤ 1) ∧
      ∀ event ∈ (demand.run host fuel state).2.log, Demanded host consumers (demands ++ [demand]) event := by
  obtain ⟨world, sound, parts⟩ := answered.sound
  have means : Means world (.thunk (demand.consumer + 1)) (consumer.reference 0) := .thunk (parts _ _ isConsumer)
  have sound' : Sound host (Demanded host consumers (demands ++ [demand])) [] world state :=
    sound.weaken fun event ⟨other, member, there⟩ => ⟨other, List.mem_append_left _ member, there⟩
  have forced : ∀ part event, host.Part (consumer.reference 0) demand.depth part → host.Forces part event →
      Demanded host consumers (demands ++ [demand]) event :=
    fun part event isPart forces => ⟨demand, by simp, consumer, part, isConsumer, isPart, forces⟩
  have ends : ∀ fuel, Ends (Sound host (Demanded host consumers (demands ++ [demand])) []) world
      (Shows host (consumer.reference 0) demand.depth)
      (Stops host (Demanded host consumers (demands ++ [demand])) [] world
        (fun error => host.Sees (consumer.reference 0) demand.depth (.failed error)) True) (demand.run host fuel state) :=
    fun fuel => grows_walk means forced state sound'
  have answers : ∀ fuel, (demand.run host fuel state).1 ≠ .error .pending →
      ∃ answer, seen (demand.run host fuel state).1 = some answer ∧ host.Sees (consumer.reference 0) demand.depth answer := by
    intro fuel returns
    have ended := ends fuel
    generalize demand.run host fuel state = outcome at ended returns ⊢
    rcases outcome with ⟨(error | _) | value, state'⟩
    · rcases error with error | message | _
      · exact ⟨.failed error, rfl, ended.2⟩
      · exact ended.elim
      · exact ended.elim
    · exact absurd rfl returns
    · obtain ⟨-, -, -, answer, sees, same⟩ := ended
      exact ⟨answer, same, sees⟩
  have finds : ∀ answer, host.Sees (consumer.reference 0) demand.depth answer →
      ∃ enough, ∀ fuel ≥ enough, seen (demand.run host fuel state).1 = some answer := by
    intro answer sees
    obtain ⟨enough, returns⟩ := walk_returns sees
    refine ⟨enough, fun fuel le => ?_⟩
    obtain ⟨answer', same, sees'⟩ := answers fuel (returns fuel le means forced sound')
    rw [same, sees'.unique sees]
  refine ⟨answers, finds, ?_, ?_⟩
  · rintro decisions rfl
    exact finds _ ((Host.ofList_lists decisions consumer).sees demand.depth)
  · intro fuel
    have ended := ends fuel
    generalize demand.run host fuel state = outcome at ended ⊢
    have logged : Logged (Demanded host consumers (demands ++ [demand])) outcome.2 := by
      rcases outcome with ⟨(error | _) | value, state'⟩
      · rcases error with error | message | _
        · obtain ⟨⟨_, _, after⟩, -⟩ := ended
          exact after.toLogged
        · exact ended.elim
        · exact ended.elim
      · exact ended.1
      · obtain ⟨_, _, after, -⟩ := ended
        exact after.toLogged
    exact ⟨logged.once, logged.allowed⟩

/-- The second element of an infinite list is rejected, and the suffix has been demanded before. -/
theorem lazy_split_infinite : ∃ enough, ∀ fuel ≥ enough,
    seen ((⟨0, 1⟩ : Demand).run ⟨fun _ => .value .cons, fun position => .value (position == 0)⟩ fuel
      ((⟨1, 0⟩ : Demand).run (⟨fun _ => .value .cons, fun position => .value (position == 0)⟩ : Host Unit) 4 (span false)).2).1 =
        some .nil := by
  have answered : Answered (⟨fun _ => .value .cons, fun position => .value (position == 0)⟩ : Host Unit)
      [.takeClass true, .dropClass true] "List.span/break" [⟨1, 0⟩] _ := @Answered.demand _ _ _ _ _ _ .start ⟨1, 0⟩ (by decide) 4 (by decide)
  refine (lazy_split answered ⟨0, 1⟩ rfl).2.1 .nil ?_
  exact .tail ⟨1, rfl⟩ (@Host.Sees.here _ _ _ .nil ⟨1, rfl⟩)

end Demands

end HellRs.LazyList
