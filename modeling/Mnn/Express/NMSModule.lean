import Mathlib.Algebra.Order.Field.Rat
import Mathlib.Tactic
import Mnn.Lib.GreedySelection
import Mnn.Lib.Heap
import Mnn.Lib.Loops

/-!
# `NMSModule`: non-maximum suppression

`onForward` runs one suppression for each batch and class: a priority queue gives the candidates by
their scores, and a backward scan over the selected ones decides.

* `IOU`, `NonMaxSuppressionSingleClasssImpl`, `onForward`: the module, over exact numbers; a read
  outside a tensor and a division by zero are `none`;
* `Box.iou`: the share of the union that two boxes have in common; `IOU_eq`;
* `IsGreedy`: the greedy definition, for one batch and class; `single_class_spec`;
* `suppresses_iff`: the module follows it, unless it is given a negative number of detections.
-/

namespace Mnn.NMSModule

open Lib

/-! ### The module -/

/-- A tensor of numbers. -/
structure Variable where
  dim : List ℕ
  data : List ℚ

/-- What stands `k` places behind `offset`. -/
def Variable.readMap (v : Variable) (offset k : ℕ) : Option ℚ := v.data[offset + k]?

/-- The inputs; `thresholds` are the first elements of those after the third. -/
structure Inputs where
  boxes : Variable
  score : Variable
  maxDetections : Int32
  thresholds : List ℚ

structure Output where
  dim : List ℕ
  data : List ℕ

structure Candidate where
  boxIndex : ℕ
  score : ℚ

/-- The order of the queue: `cmp` with its sides exchanged, as the greatest comes out first. -/
def Candidate.Before (bsI bsJ : Candidate) : Prop := bsJ.score < bsI.score

instance : DecidableRel Candidate.Before :=
  fun a b => inferInstanceAs (Decidable (b.score < a.score))

instance : IsStrictOrder Candidate Candidate.Before where
  irrefl _ := lt_irrefl _
  trans _ _ _ hab hbc := lt_trans hbc hab

/-- The priority queue, up to the order of candidates with one score. -/
abbrev Queue := HeapOps Candidate Candidate.Before

def divide (a b : ℚ) : Option ℚ := if b = 0 then none else some (a / b)

/-- Intersection over union of the boxes `i` and `j`. -/
def IOU (boxes : ℕ → Option ℚ) (i j : ℕ) : Option ℚ := do
  let yMinI := min (← boxes (i * 4 + 0)) (← boxes (i * 4 + 2))
  let xMinI := min (← boxes (i * 4 + 1)) (← boxes (i * 4 + 3))
  let yMaxI := max (← boxes (i * 4 + 0)) (← boxes (i * 4 + 2))
  let xMaxI := max (← boxes (i * 4 + 1)) (← boxes (i * 4 + 3))
  let yMinJ := min (← boxes (j * 4 + 0)) (← boxes (j * 4 + 2))
  let xMinJ := min (← boxes (j * 4 + 1)) (← boxes (j * 4 + 3))
  let yMaxJ := max (← boxes (j * 4 + 0)) (← boxes (j * 4 + 2))
  let xMaxJ := max (← boxes (j * 4 + 1)) (← boxes (j * 4 + 3))
  let areaI := (yMaxI - yMinI) * (xMaxI - xMinI)
  let areaJ := (yMaxJ - yMinJ) * (xMaxJ - xMinJ)
  if areaI ≤ 0 ∨ areaJ ≤ 0 then
    return 0
  let intersectionYMin := max yMinI yMinJ
  let intersectionXMin := max xMinI xMinJ
  let intersectionYMax := min yMaxI yMaxJ
  let intersectionXMax := min xMaxI xMaxJ
  let intersectionArea :=
    max (intersectionYMax - intersectionYMin) 0 * max (intersectionXMax - intersectionXMin) 0
  divide intersectionArea (areaI + areaJ - intersectionArea)

/-- One pass of the backward scan, over the selected box `j`. -/
def scan (boxes : ℕ → Option ℚ) (iouThreshold : ℚ) (next : ℕ) (should : Bool) (j : ℕ) :
    Option Bool := do
  let iou ← IOU boxes next j
  if iou = 0 then
    return should
  if iouThreshold < iou then
    return false
  return should

def shouldSelect (boxes : ℕ → Option ℚ) (iouThreshold : ℚ) (selected : List ℕ) (next : ℕ) :
    Option Bool :=
  selected.reverse.foldlM (scan boxes iouThreshold next) true

/-- The queue after the loop over the scores. -/
def enqueue (H : Queue) (scoresData : List ℚ) (scoreThreshold : ℚ) : H.Heap :=
  scoresData.zipIdx.foldl (fun queue (s, i) =>
    if scoreThreshold < s then H.push queue ⟨i, s⟩ else queue) H.empty

/-- The `while` loop. -/
def selectLoop (H : Queue) (boxes : ℕ → Option ℚ) (iouThreshold : ℚ) (outputNum : ℤ)
    (queue : H.Heap) (selected : List ℕ) : Option (List ℕ) :=
  -- `selected->size()` has 64 bits and no sign, and `outputNum` is converted to that
  if (selected.length : ℤ) < outputNum % 2 ^ 64 then
    match _hpop : H.pop queue with
    | none => some selected
    | some (nextCandidate, rest) => do
      let should ← shouldSelect boxes iouThreshold selected nextCandidate.boxIndex
      selectLoop H boxes iouThreshold outputNum rest
        (if should then selected ++ [nextCandidate.boxIndex] else selected)
  else
    some selected
termination_by H.size queue
decreasing_by
  have hsize := HeapOps.size_pop _hpop
  omega

section Loop

variable {H : Queue} {boxes : ℕ → Option ℚ} {iouThreshold : ℚ} {outputNum : ℤ}
variable {queue rest : H.Heap} {selected : List ℕ}

theorem selectLoop_full (hfull : ¬ (selected.length : ℤ) < outputNum % 2 ^ 64) :
    selectLoop H boxes iouThreshold outputNum queue selected = some selected := by
  rw [selectLoop, if_neg hfull]

theorem selectLoop_empty (hpop : H.pop queue = none) :
    selectLoop H boxes iouThreshold outputNum queue selected = some selected := by
  rw [selectLoop]
  split_ifs
  · split
    · rfl
    · rename_i hpop'
      rw [hpop] at hpop'
      cases hpop'
  · rfl

theorem selectLoop_next (hroom : (selected.length : ℤ) < outputNum % 2 ^ 64) {next : Candidate}
    (hpop : H.pop queue = some (next, rest)) {should : Bool}
    (hshould : shouldSelect boxes iouThreshold selected next.boxIndex = some should) :
    selectLoop H boxes iouThreshold outputNum queue selected =
      selectLoop H boxes iouThreshold outputNum rest
        (if should then selected ++ [next.boxIndex] else selected) := by
  rw [selectLoop, if_pos hroom]
  split
  · rename_i hpop'
    rw [hpop] at hpop'
    cases hpop'
  · rename_i hpop'
    rw [hpop] at hpop'
    cases hpop'
    rw [hshould]
    rfl

end Loop

def NonMaxSuppressionSingleClasssImpl (H : Queue) (boxes scores : ℕ → Option ℚ) (numBoxes : ℕ)
    (maxDetections : Int32) (iouThreshold scoreThreshold : ℚ) : Option (List ℕ) := do
  let outputNum := min maxDetections.toInt numBoxes
  let scoresData ← (List.range numBoxes).mapM scores
  selectLoop H boxes iouThreshold outputNum (enqueue H scoresData scoreThreshold) []

/-- `std::numeric_limits<float>::lowest()` -/
def lowest : ℚ := -(2 ^ 128 - 2 ^ 104)

namespace Inputs

variable (x : Inputs)

def iouThreshold : ℚ := x.thresholds[0]?.getD 0

def scoreThreshold : ℚ := x.thresholds[1]?.getD lowest

/-- Boxes and scores have dimensions for batches, and the scores one for classes. -/
def onnxFormat : Bool := 1 < x.score.dim.length

/-- `batch`, `numClass` and `numBoxes`. -/
def sizes : Option (ℕ × ℕ × ℕ) := do
  let numBoxes ← x.boxes.dim[0]?
  if x.onnxFormat then
    return (← x.score.dim[0]?, ← x.score.dim[1]?, ← x.score.dim[2]?)
  return (1, 1, numBoxes)

end Inputs

/-- What the output has for the box `i` of a batch and a class. -/
def entry (onnxFormat : Bool) (b c i : ℕ) : List ℕ := if onnxFormat then [b, c, i] else [i]

def onForward (H : Queue) (x : Inputs) : Option Output := do
  let (batch, numClass, numBoxes) ← x.sizes
  let outputData ← (List.range batch).foldlM (fun outputData b =>
    (List.range numClass).foldlM (fun outputData c => do
      let selected ← NonMaxSuppressionSingleClasssImpl H (x.boxes.readMap (b * numBoxes * 4))
        (x.score.readMap ((b * numClass + c) * numBoxes)) numBoxes x.maxDetections x.iouThreshold
        x.scoreThreshold
      return outputData ++ selected.flatMap (entry x.onnxFormat b c)) outputData) []
  return ⟨if x.onnxFormat then [outputData.length / 3, 3] else [outputData.length], outputData⟩

/-! ### Boxes -/

structure Interval where
  lo : ℚ
  hi : ℚ
  lo_le_hi : lo ≤ hi

namespace Interval

/-- The interval with two given ends, in either order. -/
def between (p q : ℚ) : Interval := ⟨min p q, max p q, min_le_max⟩

def length (a : Interval) : ℚ := a.hi - a.lo

/-- The length of what two intervals have in common. -/
def overlap (a b : Interval) : ℚ := max (min a.hi b.hi - max a.lo b.lo) 0

theorem length_nonneg (a : Interval) : 0 ≤ a.length := sub_nonneg.2 a.lo_le_hi

theorem overlap_nonneg (a b : Interval) : 0 ≤ a.overlap b := le_max_right _ _

theorem overlap_comm (a b : Interval) : a.overlap b = b.overlap a := by
  rw [overlap, overlap, min_comm, max_comm a.lo]

theorem overlap_le (a b : Interval) : a.overlap b ≤ a.length :=
  max_le (sub_le_sub (min_le_left _ _) (le_max_left _ _)) a.length_nonneg

end Interval

/-- A box with its sides along the axes. -/
structure Box where
  y : Interval
  x : Interval

namespace Box

def area (a : Box) : ℚ := a.y.length * a.x.length

def overlap (a b : Box) : ℚ := a.y.overlap b.y * a.x.overlap b.x

def union (a b : Box) : ℚ := a.area + b.area - a.overlap b

/-- The share of the union that is common to both; `0` when the union has no area. -/
def iou (a b : Box) : ℚ := a.overlap b / a.union b

theorem overlap_nonneg (a b : Box) : 0 ≤ a.overlap b :=
  mul_nonneg (a.y.overlap_nonneg b.y) (a.x.overlap_nonneg b.x)

theorem overlap_comm (a b : Box) : a.overlap b = b.overlap a := by
  rw [overlap, overlap, a.y.overlap_comm, a.x.overlap_comm]

theorem overlap_le (a b : Box) : a.overlap b ≤ a.area :=
  mul_le_mul (a.y.overlap_le b.y) (a.x.overlap_le b.x) (a.x.overlap_nonneg b.x) a.y.length_nonneg

/-- A box without area has nothing in common with another. -/
theorem iou_eq_zero {a b : Box} (h : a.area ≤ 0 ∨ b.area ≤ 0) : a.iou b = 0 := by
  have hzero : a.overlap b = 0 := by
    refine le_antisymm ?_ (a.overlap_nonneg b)
    rcases h with h | h
    · exact (a.overlap_le b).trans h
    · exact (a.overlap_comm b).trans_le ((b.overlap_le a).trans h)
  rw [iou, hzero, zero_div]

theorem union_pos {a b : Box} (hb : 0 < b.area) : 0 < a.union b := by
  have hle := a.overlap_le b
  rw [union]
  linarith

/-- The box whose opposite corners are the four numbers from `i * 4` on. -/
def ofCorners (boxes : ℕ → ℚ) (i : ℕ) : Box where
  y := .between (boxes (i * 4 + 0)) (boxes (i * 4 + 2))
  x := .between (boxes (i * 4 + 1)) (boxes (i * 4 + 3))

end Box

section SingleClass

variable {boxes : ℕ → Option ℚ} {f : ℕ → ℚ} {n : ℕ}

/-- `IOU` reads two boxes and never divides by zero. -/
theorem IOU_eq (hboxes : ∀ k < n * 4, boxes k = some (f k)) {i j : ℕ} (hi : i < n) (hj : j < n) :
    IOU boxes i j = some ((Box.ofCorners f i).iou (Box.ofCorners f j)) := by
  have hread : ∀ i < n, ∀ k < 4, boxes (i * 4 + k) = some (f (i * 4 + k)) :=
    fun i hi k hk => hboxes _ (by omega)
  unfold IOU
  simp only [hread i hi, hread j hj, Nat.ofNat_pos, Nat.one_lt_ofNat, Nat.reduceLT,
    Option.bind_eq_bind, Option.bind_some]
  split_ifs with hzero
  · rw [Box.iou_eq_zero (a := Box.ofCorners f i) (b := Box.ofCorners f j) hzero]
    rfl
  · rw [not_or, not_le, not_le] at hzero
    have hne : (Box.ofCorners f i).union (Box.ofCorners f j) ≠ 0 := 
      (Box.union_pos (a := Box.ofCorners f i) (b := Box.ofCorners f j) hzero.2).ne'
    exact if_neg hne

theorem scan_eq (hboxes : ∀ k < n * 4, boxes k = some (f k)) {iouThreshold : ℚ}
    (hpos : 0 ≤ iouThreshold) {i j : ℕ} (hi : i < n) (hj : j < n) (should : Bool) :
    scan boxes iouThreshold i should j = some
      (should && decide (¬ iouThreshold < (Box.ofCorners f i).iou (Box.ofCorners f j))) := by
  unfold scan
  rw [IOU_eq hboxes hi hj]
  simp only [Option.bind_eq_bind, Option.bind_some]
  split_ifs with hzero hlt
  · -- boxes with nothing in common never conflict, as the threshold is not negative
    simp [hzero, hpos]
  · simp [hlt]
  · simp [hlt]

theorem shouldSelect_eq (hboxes : ∀ k < n * 4, boxes k = some (f k)) {iouThreshold : ℚ}
    (hpos : 0 ≤ iouThreshold) {selected : List ℕ} (hselected : ∀ j ∈ selected, j < n) {i : ℕ}
    (hi : i < n) : shouldSelect boxes iouThreshold selected i = some (decide
      (∀ j ∈ selected, ¬ iouThreshold < (Box.ofCorners f i).iou (Box.ofCorners f j))) := by
  have hscan : ∀ (l : List ℕ) (should : Bool), (∀ j ∈ l, j < n) →
      l.foldlM (scan boxes iouThreshold i) should = some (should && decide
        (∀ j ∈ l, ¬ iouThreshold < (Box.ofCorners f i).iou (Box.ofCorners f j))) := by
    intro l
    induction l with
    | nil => simp
    | cons j l ih =>
      intro should hl
      rw [List.forall_mem_cons] at hl
      rw [List.foldlM_cons, scan_eq hboxes hpos hi hl.1, Option.bind_eq_bind, Option.bind_some,
        ih _ hl.2]
      simp only [List.forall_mem_cons, Bool.decide_and, Bool.and_assoc]
  rw [shouldSelect, hscan _ _ fun j hj => hselected j (List.mem_reverse.1 hj)]
  simp only [Bool.true_and, List.mem_reverse]

/-! ### One batch and class -/

/-- The box `i` has the greater score. -/
def Ahead (score : ℕ → ℚ) (i j : ℕ) : Prop := score j < score i

instance (score : ℕ → ℚ) : DecidableRel (Ahead score) :=
  fun i j => inferInstanceAs (Decidable (score j < score i))

instance (score : ℕ → ℚ) : IsStrictOrder ℕ (Ahead score) where
  irrefl _ := lt_irrefl _
  trans _ _ _ hij hjk := lt_trans hjk hij

/-- The greedy definition: `selected` are the boxes above the threshold, best first, that have no
more than `iouThreshold` in common with any selected box ahead of them and are among the first
`maxDetections`. -/
def IsGreedy (box : ℕ → Box) (score : ℕ → ℚ) (n : ℕ) (iouThreshold scoreThreshold : ℚ)
    (maxDetections : ℤ) (selected : List ℕ) : Prop :=
  IsSelection (Ahead score) (fun i j => iouThreshold < (box i).iou (box j))
    (fun i => i < n ∧ scoreThreshold < score i) maxDetections selected

variable {H : Queue} {score : ℕ → ℚ} {iouThreshold scoreThreshold : ℚ}

/-- The candidate for the box `i`. -/
def candidate (score : ℕ → ℚ) (i : ℕ) : Candidate := ⟨i, score i⟩

theorem elems_enqueue (H : Queue) (score : ℕ → ℚ) (n : ℕ) (scoreThreshold : ℚ) :
    H.elems (enqueue H ((List.range n).map score) scoreThreshold) =
      ((Multiset.range n).filter (scoreThreshold < score ·)).map (candidate score) := by
  have hzip : ((List.range n).map score).zipIdx = (List.range n).map fun i => (score i, i) := by
    refine List.ext_getElem (by simp) fun i _ _ => by simp
  have hfold : ∀ (l : List ℕ) (queue : H.Heap), H.elems (l.foldl (fun queue i =>
      if scoreThreshold < score i then H.push queue ⟨i, score i⟩ else queue) queue) =
        ((l : Multiset ℕ).filter (scoreThreshold < score ·)).map (candidate score) +
          H.elems queue := by
    intro l
    induction l with
    | nil => simp
    | cons i l ih =>
      intro queue
      rw [List.foldl_cons, ih, ← Multiset.cons_coe]
      by_cases h : scoreThreshold < score i
      · rw [if_pos h, HeapOps.elems_push,
          Multiset.filter_cons_of_pos (p := (scoreThreshold < score ·)) _ h, Multiset.map_cons,
          Multiset.cons_add, Multiset.add_cons]
        rfl
      · rw [if_neg h, Multiset.filter_cons_of_neg (p := (scoreThreshold < score ·)) _ h]
  rw [enqueue, hzip, List.foldl_map, hfold, HeapOps.elems_empty, add_zero]
  rfl

/-- The loop ends with the greedy selection, up to the conversion of the bound. -/
theorem selectLoop_spec (hboxes : ∀ k < n * 4, boxes k = some (f k)) (hpos : 0 ≤ iouThreshold)
    (huntied : ∀ i < n, ∀ j < n, score i = score j → i = j) {outputNum : ℤ} {queue : H.Heap}
    {selected : List ℕ} {rest : Multiset ℕ} (hnodup : rest.Nodup)
    (hqueue : H.elems queue = rest.map (candidate score))
    (hselected : Selecting (Ahead score)
      (fun i j => iouThreshold < (Box.ofCorners f i).iou (Box.ofCorners f j))
      (fun i => i < n ∧ scoreThreshold < score i) (outputNum % 2 ^ 64) rest selected) :
    ∃ l, selectLoop H boxes iouThreshold outputNum queue selected = some l ∧
      IsGreedy (Box.ofCorners f) score n iouThreshold scoreThreshold (outputNum % 2 ^ 64) l := by
  induction hsize : H.size queue generalizing queue selected rest with
  | zero =>
    have hrest : rest = 0 := by
      rw [← Multiset.map_eq_zero (f := candidate score), ← hqueue]
      exact Multiset.card_eq_zero.1 hsize
    have hpop := HeapOps.pop_eq_none_of_size hsize
    exact ⟨selected, selectLoop_empty hpop, hselected.isSelection (.inl hrest)⟩
  | succ size ih =>
    obtain ⟨top, queue', hpop⟩ := HeapOps.exists_pop (H := H) (h := queue) (by omega)
    have helems := H.elems_pop queue top queue' hpop
    -- the queue gives the best of the rest
    have htop : top ∈ rest.map (candidate score) := by
      rw [← hqueue, helems]
      exact Multiset.mem_cons_self top _
    obtain ⟨a, ha, rfl⟩ := Multiset.mem_map.1 htop
    obtain ⟨rest', rfl⟩ := Multiset.exists_cons_of_mem ha
    have hqueue' : H.elems queue' = rest'.map (candidate score) := by
      rw [helems, Multiset.map_cons] at hqueue
      exact (Multiset.cons_inj_right _).1 hqueue
    rw [Multiset.nodup_cons] at hnodup
    have hcand := hselected.rest_cand a ha
    have hbest : ∀ b ∈ rest', Ahead score a b := by
      intro b hb
      have hle : score b ≤ score a := by
        refine not_lt.1 (H.best queue _ queue' hpop (candidate score b) ?_)
        rw [hqueue']
        exact Multiset.mem_map_of_mem _ hb
      refine lt_of_le_of_ne hle fun heq => hnodup.1 ?_
      have hb' := hselected.rest_cand b (Multiset.mem_cons_of_mem hb)
      rwa [← huntied b hb'.1 a hcand.1 heq]
    have hsize' : H.size queue' = size := by
      have := HeapOps.size_pop hpop
      omega
    by_cases hroom : (selected.length : ℤ) < outputNum % 2 ^ 64
    · have hshould := shouldSelect_eq hboxes hpos
        (fun j hj => ((hselected.mem_iff j).1 hj).1.1.1) hcand.1
      rw [selectLoop_next hroom hpop hshould]
      refine ih hnodup.2 hqueue' ?_ hsize'
      split_ifs with hfree
      · exact hselected.take hbest hroom (of_decide_eq_true hfree)
      · rw [decide_eq_true_eq] at hfree
        push Not at hfree
        exact hselected.reject hbest hfree
    · exact ⟨selected, selectLoop_full hroom, hselected.isSelection (.inr (not_lt.1 hroom))⟩

/-- What one batch and class of the inputs has selected. -/
theorem single_class_spec (H : Queue) {scores : ℕ → Option ℚ}
    (hboxes : ∀ k < n * 4, boxes k = some (f k)) (hscores : ∀ i < n, scores i = some (score i))
    (hpos : 0 ≤ iouThreshold) (huntied : ∀ i < n, ∀ j < n, score i = score j → i = j)
    (maxDetections : Int32) (scoreThreshold : ℚ) :
    ∃ l, NonMaxSuppressionSingleClasssImpl H boxes scores n maxDetections iouThreshold
        scoreThreshold = some l ∧
      IsGreedy (Box.ofCorners f) score n iouThreshold scoreThreshold
        (min maxDetections.toInt n % 2 ^ 64) l := by
  have hread : (List.range n).mapM scores = some ((List.range n).map score) :=
    mapM_eq_some fun i hi => hscores i (List.mem_range.1 hi)
  rw [NonMaxSuppressionSingleClasssImpl, hread]
  refine selectLoop_spec hboxes hpos huntied (Multiset.Nodup.filter _ (Multiset.nodup_range n))
    (elems_enqueue H score n scoreThreshold) (.start fun i => ?_)
  rw [Multiset.mem_filter, Multiset.mem_range]

variable {l : List ℕ}

/-- A number of boxes is bound enough. -/
theorem IsGreedy.of_min {maxDetections : ℤ} (h : IsGreedy (Box.ofCorners f) score n iouThreshold
    scoreThreshold (min maxDetections n) l) :
    IsGreedy (Box.ofCorners f) score n iouThreshold scoreThreshold maxDetections l := by
  refine IsSelection.of_min h fun i hi => ?_
  -- the ones ahead of `i` are boxes other than `i`
  have hnodup : (i :: l.filter (Ahead score · i)).Nodup := by
    refine List.nodup_cons.2 ⟨fun hi' => ?_, (IsSelection.nodup h).filter _⟩
    exact lt_irrefl _ (of_decide_eq_true (List.mem_filter.1 hi').2)
  have hsub : i :: l.filter (Ahead score · i) ⊆ List.range n := by
    intro j hj
    rcases List.mem_cons.1 hj with rfl | hj
    · exact List.mem_range.2 hi.1
    · exact List.mem_range.2 ((IsSelection.mem_iff h j).1 (List.mem_filter.1 hj).1).1.1
  have hle := (hnodup.subperm hsub).length_le
  rw [List.length_cons, List.length_range, ← List.countP_eq_length_filter] at hle
  omega

/-- A number of detections that is not negative is compared as it is. -/
theorem single_class_greedy (H : Queue) {scores : ℕ → Option ℚ}
    (hboxes : ∀ k < n * 4, boxes k = some (f k)) (hscores : ∀ i < n, scores i = some (score i))
    (hpos : 0 ≤ iouThreshold) (huntied : ∀ i < n, ∀ j < n, score i = score j → i = j)
    {maxDetections : Int32} (hmax : 0 ≤ maxDetections.toInt) :
    ∃ l, NonMaxSuppressionSingleClasssImpl H boxes scores n maxDetections iouThreshold
        scoreThreshold = some l ∧
      IsGreedy (Box.ofCorners f) score n iouThreshold scoreThreshold maxDetections.toInt l := by
  obtain ⟨l, hl, hgreedy⟩ := single_class_spec H hboxes hscores hpos huntied maxDetections
    scoreThreshold
  have hlt := maxDetections.toInt_lt
  have hmod : min maxDetections.toInt n % 2 ^ 64 = min maxDetections.toInt n :=
    Int.emod_eq_of_lt (by omega) (by omega)
  rw [hmod] at hgreedy
  exact ⟨l, hl, hgreedy.of_min⟩

/-- A negative number of detections is compared as a large one, and something is selected. -/
theorem single_class_negative (H : Queue) {scores : ℕ → Option ℚ}
    (hboxes : ∀ k < n * 4, boxes k = some (f k)) (hscores : ∀ i < n, scores i = some (score i))
    (hpos : 0 ≤ iouThreshold) (huntied : ∀ i < n, ∀ j < n, score i = score j → i = j)
    {maxDetections : Int32} (hmax : maxDetections.toInt < 0) :
    ∃ l, NonMaxSuppressionSingleClasssImpl H boxes scores n maxDetections iouThreshold
        scoreThreshold = some l ∧ ∀ i < n, scoreThreshold < score i → l ≠ [] := by
  obtain ⟨l, hl, hgreedy⟩ := single_class_spec H hboxes hscores hpos huntied maxDetections
    scoreThreshold
  have hle := maxDetections.le_toInt
  refine ⟨l, hl, fun i hi habove => IsSelection.ne_nil hgreedy ?_ ⟨hi, habove⟩⟩
  rw [min_eq_left (by omega)]
  omega

end SingleClass

/-! ### All batches and classes -/

namespace Inputs

variable (x : Inputs)

/-- The box `i` of the batch `b`, of `n` boxes each. -/
def box (n b i : ℕ) : Box := .ofCorners (fun k => x.boxes.data.getD (b * n * 4 + k) 0) i

/-- The score of the box `i` for the batch `b` and the class `c`. -/
def scoreOf (numClass n b c i : ℕ) : ℚ := x.score.data.getD ((b * numClass + c) * n + i) 0

/-- Inputs for `batch` batches, `numClass` classes and `n` boxes: either one batch and class without
dimensions for them, or both dimensions. -/
structure Valid (batch numClass n : ℕ) : Prop where
  dims : (batch = 1 ∧ numClass = 1 ∧ x.boxes.dim = [n, 4] ∧ x.score.dim = [n]) ∨
    (x.boxes.dim = [batch, n, 4] ∧ x.score.dim = [batch, numClass, n])
  boxes_length : x.boxes.data.length = x.boxes.dim.prod
  score_length : x.score.data.length = x.score.dim.prod
  untied : ∀ b < batch, ∀ c < numClass, ∀ i < n, ∀ j < n,
    x.scoreOf numClass n b c i = x.scoreOf numClass n b c j → i = j
  iou_mem : 0 ≤ x.iouThreshold ∧ x.iouThreshold ≤ 1

/-- What one batch and class should have selected. -/
def IsGreedyAt (numClass n b c : ℕ) (selected : List ℕ) : Prop :=
  IsGreedy (x.box n b) (x.scoreOf numClass n b c) n x.iouThreshold x.scoreThreshold
    x.maxDetections.toInt selected

end Inputs

/-- The selected boxes of all batches and classes, in this order. -/
def emitted (onnxFormat : Bool) (batch numClass : ℕ) (selected : ℕ → ℕ → List ℕ) : Output :=
  let count :=
    ((List.range batch).flatMap fun b => (List.range numClass).flatMap (selected b)).length
  { dim := if onnxFormat then [count, 3] else [count]
    data := (List.range batch).flatMap fun b => (List.range numClass).flatMap fun c =>
      (selected b c).flatMap (entry onnxFormat b c) }

/-- The module gives the greedy selections of all batches and classes. -/
def Suppresses (H : Queue) (x : Inputs) (batch numClass n : ℕ) : Prop :=
  ∃ selected : ℕ → ℕ → List ℕ,
    (∀ b < batch, ∀ c < numClass, x.IsGreedyAt numClass n b c (selected b c)) ∧
      onForward H x = some (emitted x.onnxFormat batch numClass selected)

theorem length_entries (onnxFormat : Bool) (batch numClass : ℕ) (selected : ℕ → ℕ → List ℕ) :
    ((List.range batch).flatMap fun b => (List.range numClass).flatMap fun c =>
      (selected b c).flatMap (entry onnxFormat b c)).length =
        (if onnxFormat then 3 else 1) * ((List.range batch).flatMap fun b =>
          (List.range numClass).flatMap (selected b)).length := by
  have hentry : ∀ b c, ((selected b c).flatMap (entry onnxFormat b c)).length =
      (if onnxFormat then 3 else 1) * (selected b c).length := by
    intro b c
    rw [List.length_flatMap, mul_comm]
    cases onnxFormat <;> simp [entry]
  simp only [List.length_flatMap, hentry, List.sum_map_mul_left]

namespace Inputs.Valid

variable {x : Inputs} {batch numClass n : ℕ}

theorem sizes (h : x.Valid batch numClass n) : x.sizes = some (batch, numClass, n) := by
  rcases h.dims with ⟨rfl, rfl, hboxes, hscore⟩ | ⟨hboxes, hscore⟩
  · simp [Inputs.sizes, Inputs.onnxFormat, hboxes, hscore]
  · simp [Inputs.sizes, Inputs.onnxFormat, hboxes, hscore]

/-- The boxes of a batch lie inside their tensor. -/
theorem readMap_boxes (h : x.Valid batch numClass n) {b : ℕ} (hb : b < batch) :
    ∀ k < n * 4, x.boxes.readMap (b * n * 4) k = some (x.boxes.data.getD (b * n * 4 + k) 0) := by
  intro k hk
  have hlength : x.boxes.data.length = batch * (n * 4) := by
    rw [h.boxes_length]
    rcases h.dims with ⟨rfl, -, hboxes, -⟩ | ⟨hboxes, -⟩
    · simp [hboxes]
    · simp [hboxes]
  have hlt : b * n * 4 + k < x.boxes.data.length := by
    rw [hlength, mul_assoc]
    nlinarith
  rw [Variable.readMap, List.getElem?_eq_getElem hlt, List.getD_eq_getElem _ _ hlt]

/-- The scores of a batch and a class lie inside their tensor. -/
theorem readMap_score (h : x.Valid batch numClass n) {b c : ℕ} (hb : b < batch)
    (hc : c < numClass) : ∀ i < n, x.score.readMap ((b * numClass + c) * n) i =
      some (x.scoreOf numClass n b c i) := by
  intro i hi
  have hlength : x.score.data.length = batch * numClass * n := by
    rw [h.score_length]
    rcases h.dims with ⟨rfl, rfl, -, hscore⟩ | ⟨-, hscore⟩
    · simp [hscore]
    · simp [hscore, mul_assoc]
  have hrow : b * numClass + c < batch * numClass := by nlinarith
  have hlt : (b * numClass + c) * n + i < x.score.data.length := by
    rw [hlength]
    nlinarith
  rw [Variable.readMap, Inputs.scoreOf, List.getElem?_eq_getElem hlt, List.getD_eq_getElem _ _ hlt]

/-- The loops over batches and classes put the selections together. -/
theorem onForward_eq (h : x.Valid batch numClass n) {H : Queue} {selected : ℕ → ℕ → List ℕ}
    (hselected : ∀ b < batch, ∀ c < numClass, NonMaxSuppressionSingleClasssImpl H
      (x.boxes.readMap (b * n * 4)) (x.score.readMap ((b * numClass + c) * n)) n x.maxDetections
        x.iouThreshold x.scoreThreshold = some (selected b c)) :
    onForward H x = some (emitted x.onnxFormat batch numClass selected) := by
  have hloop : (List.range batch).foldlM (fun outputData b =>
      (List.range numClass).foldlM (fun outputData c => do
        let selected ← NonMaxSuppressionSingleClasssImpl H (x.boxes.readMap (b * n * 4))
          (x.score.readMap ((b * numClass + c) * n)) n x.maxDetections x.iouThreshold
          x.scoreThreshold
        return outputData ++ selected.flatMap (entry x.onnxFormat b c)) outputData) [] =
      some ((List.range batch).flatMap fun b => (List.range numClass).flatMap fun c =>
        (selected b c).flatMap (entry x.onnxFormat b c)) := by
    refine foldlM_eq_append (fun b hb s => foldlM_eq_append (fun c hc s => ?_) s) []
    rw [hselected b (List.mem_range.1 hb) c (List.mem_range.1 hc)]
    rfl
  rw [onForward, h.sizes]
  simp only [Option.bind_eq_bind, Option.bind_some] at hloop ⊢
  rw [hloop, Option.bind_some, length_entries]
  cases x.onnxFormat <;> simp [emitted]

/-- What holds of every selection, in the output. -/
theorem exists_selected (h : x.Valid batch numClass n) {H : Queue} {P : ℕ → ℕ → List ℕ → Prop}
    (hclass : ∀ b < batch, ∀ c < numClass, ∃ l, NonMaxSuppressionSingleClasssImpl H
      (x.boxes.readMap (b * n * 4)) (x.score.readMap ((b * numClass + c) * n)) n x.maxDetections
        x.iouThreshold x.scoreThreshold = some l ∧ P b c l) :
    ∃ selected : ℕ → ℕ → List ℕ, (∀ b < batch, ∀ c < numClass, P b c (selected b c)) ∧
      onForward H x = some (emitted x.onnxFormat batch numClass selected) := by
  have hall : ∀ b c, ∃ l, b < batch → c < numClass → NonMaxSuppressionSingleClasssImpl H
      (x.boxes.readMap (b * n * 4)) (x.score.readMap ((b * numClass + c) * n)) n x.maxDetections
        x.iouThreshold x.scoreThreshold = some l ∧ P b c l := by
    intro b c
    by_cases hbc : b < batch ∧ c < numClass
    · obtain ⟨l, hl⟩ := hclass b hbc.1 c hbc.2
      exact ⟨l, fun _ _ => hl⟩
    · exact ⟨[], fun hb hc => absurd ⟨hb, hc⟩ hbc⟩
  choose selected hselected using hall
  exact ⟨selected, fun b hb c hc => (hselected b c hb hc).2,
    h.onForward_eq fun b hb c hc => (hselected b c hb hc).1⟩

/-- With a number of detections the selections are the greedy ones. -/
theorem suppresses (h : x.Valid batch numClass n) (H : Queue)
    (hmax : 0 ≤ x.maxDetections.toInt) : Suppresses H x batch numClass n := by
  apply h.exists_selected
  intro b hb c hc
  exact single_class_greedy H (h.readMap_boxes hb) (h.readMap_score hb hc) h.iou_mem.1
    (h.untied b hb c hc) hmax

/-- Where no score is above the threshold nothing is selected, as it should be. -/
theorem suppresses_of_none (h : x.Valid batch numClass n) (H : Queue)
    (hnone : ∀ b < batch, ∀ c < numClass, ∀ i < n,
      ¬ x.scoreThreshold < x.scoreOf numClass n b c i) : Suppresses H x batch numClass n := by
  apply h.exists_selected
  intro b hb c hc
  obtain ⟨l, hl, hgreedy⟩ := single_class_spec H (h.readMap_boxes hb) (h.readMap_score hb hc)
    h.iou_mem.1 (h.untied b hb c hc) x.maxDetections x.scoreThreshold
  exact ⟨l, hl, IsSelection.of_not_cand hgreedy fun i hi => hnone b hb c hc i hi.1 hi.2⟩

/-- A negative number of detections is no bound, and no selection has less than no box. -/
theorem not_suppresses (h : x.Valid batch numClass n) {H : Queue}
    (hmax : x.maxDetections.toInt < 0) {b c i : ℕ} (hb : b < batch) (hc : c < numClass)
    (hi : i < n) (habove : x.scoreThreshold < x.scoreOf numClass n b c i) :
    ¬ Suppresses H x batch numClass n := by
  rintro ⟨selected, hselected, hforward⟩
  obtain ⟨selected', hselected', hforward'⟩ := h.exists_selected (H := H)
    (P := fun b c l => ∀ i < n, x.scoreThreshold < x.scoreOf numClass n b c i → l ≠ [])
    fun b hb c hc => single_class_negative H (h.readMap_boxes hb) (h.readMap_score hb hc)
      h.iou_mem.1 (h.untied b hb c hc) hmax
  have hdata : (emitted x.onnxFormat batch numClass selected).data =
      (emitted x.onnxFormat batch numClass selected').data := by
    rw [Option.some.inj (hforward.symm.trans hforward')]
  have hnil : (emitted x.onnxFormat batch numClass selected).data = [] := by
    refine List.flatMap_eq_nil_iff.2 fun b hb => List.flatMap_eq_nil_iff.2 fun c hc => ?_
    rw [IsSelection.eq_nil (hselected b (List.mem_range.1 hb) c (List.mem_range.1 hc)) hmax.le,
      List.flatMap_nil]
  rw [hnil] at hdata
  have hentries := List.flatMap_eq_nil_iff.1 (List.flatMap_eq_nil_iff.1 hdata.symm b
    (List.mem_range.2 hb)) c (List.mem_range.2 hc)
  obtain ⟨j, hj⟩ := List.exists_mem_of_ne_nil _ (hselected' b hb c hc i hi habove)
  have hentry := List.flatMap_eq_nil_iff.1 hentries j hj
  cases hformat : x.onnxFormat <;> simp [entry, hformat] at hentry

end Inputs.Valid

/-! ### The module against the greedy definition -/

variable {x : Inputs} {batch numClass n : ℕ}

/-- The module selects the greedy boxes of every batch and class exactly when its number of
detections is not negative, or there is nothing to select. -/
theorem suppresses_iff (H : Queue) (h : x.Valid batch numClass n) :
    Suppresses H x batch numClass n ↔ 0 ≤ x.maxDetections.toInt ∨
      ∀ b < batch, ∀ c < numClass, ∀ i < n,
        ¬ x.scoreThreshold < x.scoreOf numClass n b c i := by
  constructor
  · intro hsuppresses
    by_contra hnot
    push Not at hnot
    obtain ⟨hmax, b, hb, c, hc, i, hi, habove⟩ := hnot
    exact h.not_suppresses hmax hb hc hi habove hsuppresses
  · rintro (hmax | hnone)
    · exact h.suppresses H hmax
    · exact h.suppresses_of_none H hnone

/-- Two batches of two boxes: two with a third of their union in common, and one without area. -/
def twoBatches : Inputs where
  boxes := ⟨[2, 2, 4], [0, 0, 2, 2, 0, 3, 2, 1, 4, 4, 1, 1, 0, 0, 0, 5]⟩
  score := ⟨[2, 1, 2], [1, 2, 3, 1]⟩
  maxDetections := 2
  thresholds := [1 / 4, 0]

theorem suppresses_twoBatches :
    Suppresses (listHeap Candidate.Before) twoBatches 2 1 2 :=
  (suppresses_iff _ ⟨.inr ⟨rfl, rfl⟩, rfl, rfl, by decide,
    by norm_num [Inputs.iouThreshold, twoBatches]⟩).2 (.inl (by decide))

/-- One box, of which `-1` are wanted. -/
def minusOne : Inputs where
  boxes := ⟨[1, 4], [0, 0, 1, 1]⟩
  score := ⟨[1], [1]⟩
  maxDetections := -1
  thresholds := [1 / 2, 0]

theorem not_suppresses_minusOne :
    ¬ Suppresses (listHeap Candidate.Before) minusOne 1 1 1 :=
  Inputs.Valid.not_suppresses (b := 0) (c := 0) (i := 0)
    ⟨.inl ⟨rfl, rfl, rfl, rfl⟩, rfl, rfl, by decide,
      by norm_num [Inputs.iouThreshold, minusOne]⟩ (by decide) (by decide) (by decide)
      (by decide) (by decide)

end Mnn.NMSModule
