import Mathlib
import HellRs.Collections.Search

/-! # Ordered nub

`nub_ord` is a lazy producer: forcing it reads cells of its input until an item was not seen before. What was seen is a
tree of its own, which is carried from one cell to the next. The input is forced cell by cell, so it may be infinite. The
evaluator may fail at any cell and any comparison, and has no cell to return while a producer is still searching.
-/

namespace HellRs.Lists

open Fallible Collections Ordnode Std

variable {T S σ ε : Type}

/-- A `ListCell` with a tail that is forced later. -/
inductive ListCell (T S : Type) where
  | nil
  | cons (head : T) (tail : S)
deriving DecidableEq, Repr

/-- What the evaluator does for a producer that reads a list. -/
structure Source (T S σ ε : Type) where
  ensureNotCancelled : StateT σ (Except ε) Unit
  force : S → StateT σ (Except ε) (ListCell T S)

/-- Trees of the shape that those of sets have. -/
abbrev SeenTree (T : Type) := Ordnode T

namespace SeenTree

def delta : ℕ := 3
def ratio : ℕ := 2

/-- `SeenTree::node`. -/
def new (item : T) (left right : SeenTree T) : SeenTree T := .node (left.size + right.size + 1) left item right

def rotateLeft : SeenTree T → Option (SeenTree T)
  | .node _ left item (.node _ rightLeft rightItem rightRight) =>
      some (new rightItem (new item left rightLeft) rightRight)
  | _ => none

def rotateRight : SeenTree T → Option (SeenTree T)
  | .node _ (.node _ leftLeft leftItem leftRight) item right =>
      some (new leftItem leftLeft (new item leftRight right))
  | _ => none

def balanced : SeenTree T → Option (SeenTree T)
  | .nil => some .nil
  | .node size left item right =>
    if left.size + right.size ≤ 1 then some (.node size left item right)
    else if left.size > delta * right.size then
      match left with
      | .nil => none
      | .node leftSize leftLeft leftItem leftRight =>
        if leftRight.size ≥ ratio * leftLeft.size then do
          let left ← rotateLeft (.node leftSize leftLeft leftItem leftRight)
          rotateRight (new item left right)
        else rotateRight (.node size (.node leftSize leftLeft leftItem leftRight) item right)
    else if right.size > delta * left.size then
      match right with
      | .nil => none
      | .node rightSize rightLeft rightItem rightRight =>
        if rightLeft.size ≥ ratio * rightRight.size then do
          let right ← rotateRight (.node rightSize rightLeft rightItem rightRight)
          rotateLeft (new item left right)
        else rotateLeft (.node size left item (.node rightSize rightLeft rightItem rightRight))
    else some (.node size left item right)

/-- The tree after an insertion, and whether the item is new in it. -/
def insert (answers : Answers T σ ε) (item : T) : SeenTree T → Fallible σ ε (SeenTree T × Bool)
  | .nil => return (new item .nil .nil, true)
  | .node size left nodeItem right => do
    if ← ask (answers.equalValues item nodeItem) then return (.node size left nodeItem right, false)
    if ← ask (answers.less item nodeItem) then
      let (left', inserted) ← insert answers item left
      if !inserted then return (.node size left nodeItem right, false)
      return (← expect (balanced (new nodeItem left' right)), true)
    -- whatever is not comparable goes right as well
    let (right', inserted) ← insert answers item right
    if !inserted then return (.node size left nodeItem right, false)
    return (← expect (balanced (new nodeItem left right')), true)

end SeenTree

/-- A producer that is still to be forced: the rest of its input, and what it has seen. -/
abbrev Nub (T S : Type) := S × SeenTree T

/-- Forcing `nub_ord`, for at most so many cells of its input. -/
def nubOrd (answers : Answers T σ ε) (source : Source T S σ ε) :
    ℕ → Nub T S → Fallible σ ε (Option (ListCell T (Nub T S)))
  | 0, _ => return none
  | cells + 1, (current, seen) => do
    ask source.ensureNotCancelled
    match ← ask (source.force current) with
    | .nil => return some .nil
    | .cons head tail =>
      let (nextSeen, inserted) ← SeenTree.insert answers head seen
      if inserted then return some (.cons head (tail, nextSeen))
      nubOrd answers source cells (tail, nextSeen)

/-- An observer that demands so many cells of a producer: the items, and the rest unless the list has ended. -/
def demand {P : Type} (force : P → Fallible σ ε (Option (ListCell T P))) :
    ℕ → P → Fallible σ ε (Option (List T × Option P))
  | 0, producer => return some ([], some producer)
  | count + 1, producer => do
    match ← force producer with
    | none => return none
    | some .nil => return some ([], none)
    | some (.cons head tail) =>
      return (← demand force count tail).map fun (items, rest) => (head :: items, rest)

section Seen

variable {cmp : T → T → Ordering} {item : T} {left right : SeenTree T}

theorem SeenTree.new_eq (item : T) (left right : SeenTree T) : new item left right = TreeNode.new item left right := by
  rw [new, TreeNode.new, Nat.add_comm 1, Nat.add_right_comm]

/-- With a left side that may be the heavier one, the tree is balanced as that of a set is. -/
theorem SeenTree.balanced_eq_balanceLeft (light : left.size + right.size ≤ 1 ∨ right.size ≤ 3 * left.size) :
    balanced (new item left right) = balanceLeft item left right := by
  unfold balanceLeft
  rw [new, balanced.eq_def]
  by_cases small : left.size + right.size ≤ 1
  · simp only [small, ↓reduceIte, true_or, TreeNode.new, Nat.add_comm 1, Nat.add_right_comm]
  have light := light.resolve_left small
  by_cases heavy : left.size > 3 * right.size
  · cases left with
    | nil => simp at heavy
    | node size outer y inner =>
      simp only [small, delta, heavy, ↓reduceIte, false_or, sizeBalanceDelta, sizeBalanceRatio, ratio,
        Nat.not_le.mpr heavy, ge_iff_le]
      by_cases single : inner.size < 2 * outer.size
      · simp only [single, Nat.not_le.mpr single, ↓reduceIte, rotateRight, Collections.rotateRight, new_eq]
      · simp only [single, Nat.not_lt.mp single, ↓reduceIte]
        cases inner with
        | nil => rfl
        | node =>
          simp only [rotateLeft, rotateRight, Collections.rotateLeft, Collections.rotateRight, new_eq, Option.bind_eq_bind,
            Option.bind_some]
          rfl
  · simp only [small, delta, heavy, ↓reduceIte, Nat.not_lt.mpr light, false_or, sizeBalanceDelta,
      Nat.not_lt.mp heavy, TreeNode.new, Nat.add_comm 1, Nat.add_right_comm]

theorem SeenTree.balanced_eq_balanceRight (light : left.size + right.size ≤ 1 ∨ left.size ≤ 3 * right.size) :
    balanced (new item left right) = balanceRight item left right := by
  unfold balanceRight
  rw [new, balanced.eq_def]
  by_cases small : left.size + right.size ≤ 1
  · simp only [small, ↓reduceIte, true_or, TreeNode.new, Nat.add_comm 1, Nat.add_right_comm]
  have light := light.resolve_left small
  by_cases heavy : right.size > 3 * left.size
  · cases right with
    | nil => simp at heavy
    | node size inner y outer =>
      simp only [small, delta, heavy, ↓reduceIte, false_or, sizeBalanceDelta, sizeBalanceRatio, ratio,
        Nat.not_le.mpr heavy, ge_iff_le, gt_iff_lt, Nat.not_lt.mpr light]
      by_cases single : inner.size < 2 * outer.size
      · simp only [single, Nat.not_le.mpr single, ↓reduceIte, rotateLeft, Collections.rotateLeft, new_eq]
      · simp only [single, Nat.not_lt.mp single, ↓reduceIte]
        cases inner with
        | nil => rfl
        | node =>
          simp only [rotateLeft, rotateRight, Collections.rotateLeft, Collections.rotateRight, new_eq, Option.bind_eq_bind,
            Option.bind_some]
          rfl
  · simp only [small, delta, heavy, ↓reduceIte, Nat.not_lt.mpr light, false_or, sizeBalanceDelta,
      Nat.not_lt.mp heavy, TreeNode.new, Nat.add_comm 1, Nat.add_right_comm]

/-- The tree holds, in order, one of each kind of the items that were read, and it is balanced. -/
structure SeenTree.Seen (cmp : T → T → Ordering) (items : List T) (tree : SeenTree T) : Prop where
  balanced : WeightBalanced tree
  ordered : Increasing cmp id tree.toList
  alike : ∀ item, (∃ other ∈ tree.toList, cmp item other = .eq) ↔ ∃ other ∈ items, cmp item other = .eq

/-- An insertion keeps the balance and the order, and adds the item where none is alike. -/
theorem SeenTree.insert_ensures [TransCmp cmp] {answers : Answers T σ ε} (lawful : answers.Lawful cmp) (item : T)
    (tree : SeenTree T) (balanced : WeightBalanced tree) (ordered : Increasing cmp id tree.toList) :
    Ensures (insert answers item tree) fun (tree', inserted) =>
      WeightBalanced tree' ∧ tree.size ≤ tree'.size ∧ tree'.size ≤ tree.size + 1 ∧
        inserted = (matching cmp id item tree.toList).isNone ∧
        tree'.toList = if inserted then below cmp id item tree.toList ++ item :: above cmp id item tree.toList
          else tree.toList := by
  induction tree with
  | nil =>
    exact .pure ⟨new_eq item _ _ ▸ singleton_balanced item, by simp, by simp [new], rfl, rfl⟩
  | node size left nodeItem right ihLeft ihRight =>
    obtain ⟨rfl, hl, hr, even⟩ := WeightBalanced.node_iff.mp balanced
    rw [toList_node] at ordered
    obtain ⟨orderedLeft, orderedRight, -⟩ := increasing_append_cons.mp ordered
    have kept (found : (matching cmp id item (left.toList ++ nodeItem :: right.toList)).isSome) :
        Ensures (pure (.node (left.size + right.size + 1) left nodeItem right, false) : Fallible σ ε _)
          fun (tree', inserted) => WeightBalanced tree' ∧ left.size + right.size + 1 ≤ tree'.size ∧
            tree'.size ≤ left.size + right.size + 1 + 1 ∧
            inserted = (matching cmp id item (left.toList ++ nodeItem :: right.toList)).isNone ∧
            tree'.toList = if inserted then
              below cmp id item (left.toList ++ nodeItem :: right.toList) ++
                item :: above cmp id item (left.toList ++ nodeItem :: right.toList)
              else left.toList ++ nodeItem :: right.toList := by
      refine .pure ⟨balanced, le_rfl, Nat.le_succ _, ?_, toList_node ..⟩
      rw [Option.isNone_eq_false_iff.mpr found]
    simp only [toList_node, size_node]
    refine .bind (.ask fun _ _ _ answered => lawful.equalValues answered) fun equal isEqual => ?_
    cases equal with
    | true =>
      obtain ⟨-, -, matched⟩ := part_eq ordered (beq_iff_eq.mp isEqual.symm)
      exact kept (by rw [matched]; rfl)
    | false =>
      refine .bind (.ask fun _ _ _ answered => lawful.less answered) fun less isLess => ?_
      cases less with
      | true =>
        obtain ⟨lower, upper, matched⟩ := part_lt ordered (beq_iff_eq.mp isLess.symm)
        refine .bind (ihLeft hl orderedLeft) fun (left', inserted) ⟨hl', le, le', isNew, items⟩ => ?_
        cases inserted with
        | false =>
          refine kept ?_
          rw [matched, ← Option.not_isNone, ← isNew]
          rfl
        | true =>
          have leans := Leans.grown even le le'
          obtain ⟨tree', built, balanced', items', size⟩ := (@balanceLeft_builds _ nodeItem _ _ hl' hr leans).of_node
          rw [List.length_append, List.length_cons, hl'.length_toList, hr.length_toList] at size
          refine .bind_expect ((balanced_eq_balanceLeft leans.1).trans built) (.pure ⟨balanced', size ▸ by omega, size ▸ by omega, ?_, ?_⟩)
          · rw [matched, ← isNew]
          · rw [items', items, lower, upper]
            simp
      | false =>
        have greater : cmp item (id nodeItem) = .gt := by
          cases order : cmp item nodeItem <;> simp [order] at isEqual isLess ⊢
        obtain ⟨lower, upper, matched⟩ := part_gt ordered greater
        refine .bind (ihRight hr orderedRight) fun (right', inserted) ⟨hr', le, le', isNew, items⟩ => ?_
        cases inserted with
        | false =>
          refine kept ?_
          rw [matched, ← Option.not_isNone, ← isNew]
          rfl
        | true =>
          have leans := Leans.grown even.symm le le'
          obtain ⟨tree', built, balanced', items', size⟩ := (@balanceRight_builds _ nodeItem _ _ hl hr' leans).of_node
          rw [List.length_append, List.length_cons, hl.length_toList, hr'.length_toList] at size
          have light := leans.1.imp_left (Nat.add_comm _ _).le.trans
          refine .bind_expect ((balanced_eq_balanceRight light).trans built) (.pure ⟨balanced', size ▸ by omega, size ▸ by omega, ?_, ?_⟩)
          · rw [matched, ← isNew]
          · rw [items', items, lower, upper]
            simp

end Seen

section Occurrences

variable {cmp : T → T → Ordering}

/-- The items that are not like an earlier one, in order. -/
def firstOccurrences (cmp : T → T → Ordering) (items : List T) : List T :=
  items.zipIdx.filterMap fun (item, index) => if (items.take index).any (cmp item · == .eq) then none else some item

theorem firstOccurrences_concat (items : List T) (item : T) : firstOccurrences cmp (items ++ [item]) =
    firstOccurrences cmp items ++ if items.any (cmp item · == .eq) then [] else [item] := by
  rw [firstOccurrences, List.zipIdx_append, List.filterMap_append]
  congr 1
  · refine List.filterMap_congr fun (other, index) member => ?_
    have inside := (List.mem_zipIdx member).2.1
    simp only [List.take_append_of_le_length (show index ≤ items.length by omega)]
  · simp only [List.zipIdx_singleton, Nat.zero_add, List.filterMap_cons, List.take_left, List.filterMap_nil]
    split_ifs <;> rfl

/-- The cells of a list from one place to another hold these items. -/
def Reads (cells : S → ListCell T S) : S → List T → S → Prop
  | start, [], last => start = last
  | start, item :: items, last => ∃ tail, cells start = .cons item tail ∧ Reads cells tail items last

/-- Whatever the evaluator returns for a cell is that of the list. -/
def Source.Denotes (source : Source T S σ ε) (cells : S → ListCell T S) : Prop :=
  ∀ start state cell state', source.force start state = .ok (cell, state') → cell = cells start

theorem SeenTree.Seen.nil : Seen cmp [] .nil := ⟨.nil, .nil, fun item => by simp⟩

theorem matching_isNone (item : T) (items : List T) :
    (matching cmp id item items).isNone = !items.any (cmp item · == .eq) := by
  rw [matching, Bool.eq_iff_iff]
  simp

theorem SeenTree.Seen.insert [TransCmp cmp] {answers : Answers T σ ε} (lawful : answers.Lawful cmp) {items : List T}
    {tree : SeenTree T} (seen : Seen cmp items tree) (item : T) :
    Ensures (insert answers item tree) fun (tree', inserted) =>
      Seen cmp (items ++ [item]) tree' ∧ inserted = !items.any (cmp item · == .eq) := by
  refine (insert_ensures lawful item tree seen.balanced seen.ordered).mono
    fun (tree', inserted) ⟨balanced, _, _, isNew, content⟩ => ?_
  have agree : tree.toList.any (cmp item · == .eq) = items.any (cmp item · == .eq) := by
    rw [Bool.eq_iff_iff]
    simpa using seen.alike item
  have isNew : inserted = !items.any (cmp item · == .eq) := by rw [isNew, matching_isNone, agree]
  cases inserted with
  | false =>
    obtain ⟨like, there, same⟩ : ∃ other ∈ items, cmp item other = .eq := by simpa using isNew
    refine ⟨⟨balanced, (show tree'.toList = tree.toList from content) ▸ seen.ordered, fun other => ?_⟩, isNew⟩
    simp only [content, Bool.false_eq_true, ↓reduceIte, seen.alike other, List.mem_append, List.mem_singleton]
    constructor
    · rintro ⟨old, member, alike⟩
      exact ⟨old, .inl member, alike⟩
    · rintro ⟨old, member | rfl, alike⟩
      · exact ⟨old, member, alike⟩
      · exact ⟨like, there, TransCmp.eq_trans alike same⟩
  | true =>
    have apart : ∀ other ∈ tree.toList, cmp item other ≠ .eq := by
      rw [← agree] at isNew
      simpa using isNew
    have members (other : T) : other ∈ tree'.toList ↔ other ∈ tree.toList ∨ other = item := by
      simp only [content, ↓reduceIte, List.mem_append, List.mem_cons, mem_below, mem_above, id_eq]
      have different := apart other
      cases order : cmp item other <;> simp [order] at different ⊢ <;> tauto
    refine ⟨⟨balanced, content ▸ seen.ordered.replace ReflCmp.compare_self, fun other => ?_⟩, isNew⟩
    have old := seen.alike other
    simp only [members, List.mem_append, List.mem_singleton, or_and_right, exists_or, old]

/-- What forcing a producer finds, after these items were read. -/
def Finds (cmp : T → T → Ordering) (cells : S → ListCell T S) (cellCount : ℕ) (items : List T) (start : S) :
    Option (ListCell T (Nub T S)) → Prop
  | none => ∃ read last, Reads cells start read last ∧ read.length = cellCount ∧
      firstOccurrences cmp (items ++ read) = firstOccurrences cmp items
  | some .nil => ∃ read last, Reads cells start read last ∧ cells last = .nil ∧
      firstOccurrences cmp (items ++ read) = firstOccurrences cmp items
  | some (.cons head (tail, seen)) => ∃ read, Reads cells start read tail ∧
      firstOccurrences cmp (items ++ read) = firstOccurrences cmp items ++ [head] ∧ seen.Seen cmp (items ++ read)

theorem Finds.later {cells : S → ListCell T S} {cellCount : ℕ} {items : List T} {start tail : S} {head : T}
    (here : cells start = .cons head tail) (old : items.any (cmp head · == .eq)) :
    ∀ {result}, Finds cmp cells cellCount (items ++ [head]) tail result →
      Finds cmp cells (cellCount + 1) items start result
  | none, ⟨read, last, reads, length, found⟩ => by
    rw [firstOccurrences_concat, if_pos old, List.append_nil, List.append_assoc] at found
    exact ⟨head :: read, last, ⟨tail, here, reads⟩, by rw [List.length_cons, length], found⟩
  | some .nil, ⟨read, last, reads, ended, found⟩ => by
    rw [firstOccurrences_concat, if_pos old, List.append_nil, List.append_assoc] at found
    exact ⟨head :: read, last, ⟨tail, here, reads⟩, ended, found⟩
  | some (.cons _ (_, _)), ⟨read, reads, found, seen⟩ => by
    rw [firstOccurrences_concat, if_pos old, List.append_nil, List.append_assoc] at found
    rw [List.append_assoc] at seen
    exact ⟨head :: read, ⟨tail, here, reads⟩, found, seen⟩

/-- Forcing reads up to the next item that is not like one read before. -/
theorem nubOrd_finds [TransCmp cmp] {answers : Answers T σ ε} (lawful : answers.Lawful cmp) {source : Source T S σ ε}
    {cells : S → ListCell T S} (denotes : source.Denotes cells) (cellCount : ℕ) (start : S) {items : List T}
    {seen : SeenTree T} (isSeen : seen.Seen cmp items) :
    Ensures (nubOrd answers source cellCount (start, seen)) (Finds cmp cells cellCount items start) := by
  induction cellCount generalizing start items seen with
  | zero => exact .pure ⟨[], start, rfl, rfl, by rw [List.append_nil]⟩
  | succ cellCount ih =>
    rw [nubOrd]
    refine .bind_ask fun _ => .bind (.ask fun state cell state' => denotes start state cell state') fun cell here => ?_
    cases cell with
    | nil => exact .pure ⟨[], start, rfl, here.symm, by rw [List.append_nil]⟩
    | cons head tail =>
      refine .bind (isSeen.insert lawful head) fun (seen', inserted) ⟨isSeen', isNew⟩ => ?_
      cases inserted with
      | true =>
        refine .pure ⟨[head], ⟨tail, here.symm, rfl⟩, ?_, isSeen'⟩
        rw [firstOccurrences_concat, if_neg (by simpa using isNew.symm)]
      | false =>
        exact (ih tail isSeen').mono fun result finds => finds.later here.symm (by simpa using isNew.symm)

theorem Reads.append {cells : S → ListCell T S} {first second : List T} {start middle last : S}
    (reads : Reads cells start first middle) (reads' : Reads cells middle second last) :
    Reads cells start (first ++ second) last := by
  induction first generalizing start with
  | nil =>
    obtain rfl : start = middle := reads
    exact reads'
  | cons item first ih =>
    obtain ⟨tail, here, reads⟩ := reads
    exact ⟨tail, here, ih reads⟩

/-- What an observer of `count` cells sees, after these items were read. -/
def Observes (cmp : T → T → Ordering) (cells : S → ListCell T S) (cellCount count : ℕ) (items : List T) (start : S) :
    Option (List T × Option (Nub T S)) → Prop
  -- the search for the next item has not ended within the cells it may read
  | none => ∃ read last new, Reads cells start read last ∧ cellCount ≤ read.length ∧
      firstOccurrences cmp (items ++ read) = firstOccurrences cmp items ++ new ∧ new.length < count
  | some (new, none) => ∃ read last, Reads cells start read last ∧ cells last = .nil ∧
      firstOccurrences cmp (items ++ read) = firstOccurrences cmp items ++ new ∧ new.length ≤ count
  | some (new, some (last, seen)) => ∃ read, Reads cells start read last ∧
      firstOccurrences cmp (items ++ read) = firstOccurrences cmp items ++ new ∧ new.length = count ∧
      seen.Seen cmp (items ++ read)

theorem Observes.later {cells : S → ListCell T S} {cellCount count : ℕ} {items read : List T} {start tail : S} {head : T}
    (reads : Reads cells start read tail)
    (found : firstOccurrences cmp (items ++ read) = firstOccurrences cmp items ++ [head]) :
    ∀ {result}, Observes cmp cells cellCount count (items ++ read) tail result →
      Observes cmp cells cellCount (count + 1) items start (result.map fun (new, rest) => (head :: new, rest))
  | none, ⟨read', last, new, reads', length, found', less⟩ => by
    rw [found, List.append_assoc, List.append_assoc] at found'
    exact ⟨read ++ read', last, head :: new, reads.append reads', by rw [List.length_append]; omega, found',
      Nat.succ_lt_succ less⟩
  | some (new, none), ⟨read', last, reads', ended, found', length⟩ => by
    rw [found, List.append_assoc, List.append_assoc] at found'
    exact ⟨read ++ read', last, reads.append reads', ended, found', Nat.succ_le_succ length⟩
  | some (new, some (last, seen)), ⟨read', reads', found', length, isSeen⟩ => by
    rw [found, List.append_assoc, List.append_assoc] at found'
    rw [List.append_assoc] at isSeen
    exact ⟨read ++ read', reads.append reads', found', congrArg (· + 1) length, isSeen⟩

theorem demand_observes [TransCmp cmp] {answers : Answers T σ ε} (lawful : answers.Lawful cmp)
    {source : Source T S σ ε} {cells : S → ListCell T S} (denotes : source.Denotes cells) (cellCount count : ℕ) (start : S)
    {items : List T} {seen : SeenTree T} (isSeen : seen.Seen cmp items) :
    Ensures (demand (nubOrd answers source cellCount) count (start, seen))
      (Observes cmp cells cellCount count items start) := by
  induction count generalizing start items seen with
  | zero => exact .pure ⟨[], rfl, by simp, rfl, by rwa [List.append_nil]⟩
  | succ count ih =>
    rw [demand]
    refine .bind (nubOrd_finds lawful denotes cellCount start isSeen) fun result finds => ?_
    match result, finds with
    | none, ⟨read, last, reads, length, found⟩ =>
      exact .pure ⟨read, last, [], reads, length.ge, by rw [found, List.append_nil], Nat.succ_pos _⟩
    | some .nil, ⟨read, last, reads, ended, found⟩ =>
      exact .pure ⟨read, last, reads, ended, by rw [found, List.append_nil], Nat.zero_le _⟩
    | some (.cons head (tail, seen')), ⟨read, reads, found, isSeen'⟩ =>
      exact .bind (ih tail isSeen') fun result observes => .pure (observes.later reads found)

/-- What is read of a list that ends is its beginning. -/
theorem Reads.beginning {cells : S → ListCell T S} {items read : List T} {start last other : S}
    (reads : Reads cells start items last) (ended : cells last = .nil) (reads' : Reads cells start read other) :
    ∃ rest, items = read ++ rest ∧ (cells other = .nil → rest = []) := by
  induction read generalizing start items with
  | nil =>
    obtain rfl : start = other := reads'
    refine ⟨items, rfl, fun reached => ?_⟩
    cases items with
    | nil => rfl
    | cons item items =>
      obtain ⟨tail, here, -⟩ := reads
      cases reached.symm.trans here
  | cons item read ih =>
    obtain ⟨tail, here, reads'⟩ := reads'
    cases items with
    | nil =>
      obtain rfl : start = last := reads
      cases ended.symm.trans here
    | cons first items =>
      obtain ⟨tail', here', reads⟩ := reads
      obtain ⟨rfl, rfl⟩ : item = first ∧ tail = tail' := by simpa using here.symm.trans here'
      obtain ⟨rest, rfl, reached⟩ := ih reads reads'
      exact ⟨rest, rfl, reached⟩

theorem firstOccurrences_append (items rest : List T) :
    ∃ new, firstOccurrences cmp (items ++ rest) = firstOccurrences cmp items ++ new := by
  induction rest using List.reverseRecOn with
  | nil => exact ⟨[], by simp⟩
  | append_singleton rest item ih =>
    obtain ⟨new, found⟩ := ih
    rw [← List.append_assoc, firstOccurrences_concat, found, List.append_assoc]
    exact ⟨_, rfl⟩

/-- Of a list that ends within the cells that may be read, an observer sees as many first occurrences as it demands. -/
theorem Observes.finite {cells : S → ListCell T S} {cellCount count : ℕ} {items : List T} {start last : S}
    (reads : Reads cells start items last) (ended : cells last = .nil) (enough : items.length < cellCount) :
    ∀ {result}, Observes cmp cells cellCount count [] start result →
      ∃ rest, result = some ((firstOccurrences cmp items).take count, rest)
  | none, ⟨read, other, new, reads', length, _, _⟩ => by
    obtain ⟨rest, rfl, -⟩ := reads.beginning ended reads'
    rw [List.length_append] at enough
    omega
  | some (new, none), ⟨read, other, reads', ended', found, length⟩ => by
    obtain ⟨rest, rfl, reached⟩ := reads.beginning ended reads'
    obtain rfl := reached ended'
    have found : firstOccurrences cmp read = new := found
    exact ⟨none, by rw [List.append_nil, found, List.take_of_length_le length]⟩
  | some (new, some (other, seen)), ⟨read, reads', found, length, _⟩ => by
    obtain ⟨rest, rfl, -⟩ := reads.beginning ended reads'
    obtain ⟨more, found'⟩ := @firstOccurrences_append _ cmp read rest
    have found : firstOccurrences cmp read = new := found
    exact ⟨some (other, seen), by rw [found', found, ← length, List.take_left]⟩

/-- An observer of the ordered nub of a list, finite or not, sees the first occurrences of what was read of the list: all
of them when the list has ended, else as many as were demanded, with a tree that is in order and balanced. A search that
has read more cells than it may is one that met too few first occurrences in them. Every insertion keeps the order and
the balance of the tree. -/
theorem nubOrd_firstOccurrences [TransCmp cmp] (answers : Answers T σ ε) (lawful : answers.Lawful cmp)
    (source : Source T S σ ε) (cells : S → ListCell T S) (denotes : source.Denotes cells) (cellCount count : ℕ)
    (start : S) :
    Ensures (demand (nubOrd answers source cellCount) count (start, .nil))
      (Observes cmp cells cellCount count [] start) ∧
      (∀ items last, Reads cells start items last → cells last = .nil → items.length < cellCount →
        Ensures (demand (nubOrd answers source cellCount) count (start, .nil)) fun result =>
          ∃ rest, result = some ((firstOccurrences cmp items).take count, rest)) ∧
      ∀ (item : T) (tree : SeenTree T), WeightBalanced tree → Increasing cmp id tree.toList →
        Ensures (SeenTree.insert answers item tree) fun (tree', _) =>
          WeightBalanced tree' ∧ Increasing cmp id tree'.toList := by
  have observes := demand_observes lawful denotes cellCount count start .nil
  refine ⟨observes, fun items last reads ended enough => observes.mono fun result observed =>
    observed.finite reads ended enough, fun item tree balanced ordered => ?_⟩
  have seen : tree.Seen cmp tree.toList := ⟨balanced, ordered, fun _ => Iff.rfl⟩
  exact (seen.insert lawful item).mono fun _ ⟨seen', _⟩ => ⟨seen'.balanced, seen'.ordered⟩

/-- The cells of a list in memory. -/
def listCells : List T → ListCell T (List T)
  | [] => .nil
  | head :: tail => .cons head tail

theorem nubOrd_firstOccurrences_numbers :
    Ensures (demand (@nubOrd ℕ (List ℕ) Unit Unit ⟨fun left right => pure (compare left right == .eq),
      fun left right => pure (compare left right == .lt), fun left right => pure (compare left right == .gt), pure true⟩
      ⟨pure (), fun list => pure (listCells list)⟩ 4) 5 ([2, 1, 2], .nil)) fun result =>
        ∃ rest, result = some ([2, 1], rest) :=
  (@nubOrd_firstOccurrences ℕ (List ℕ) Unit Unit compare _ _ ⟨by rintro _ _ _ _ _ ⟨⟩; rfl, by rintro _ _ _ _ _ ⟨⟩; rfl,
    by rintro _ _ _ _ _ ⟨⟩; rfl⟩ _ listCells (by rintro _ _ _ _ ⟨⟩; rfl) 4 5 [2, 1, 2]).2.1 [2, 1, 2] []
    ⟨_, rfl, _, rfl, _, rfl, rfl⟩ rfl (by decide)

end Occurrences

end HellRs.Lists
