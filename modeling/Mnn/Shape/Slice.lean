import Mathlib.Algebra.Order.BigOperators.Group.List
import Mathlib.Data.List.Chain
import Mathlib.Tactic.Ring
import Mnn.Shape.SizeComputer

/-!
# `SliceComputer`

The extents of the parts of a tensor (`source/shape/ShapeSlice.cpp`).

* `SliceComputer.caffe`, `SliceComputer.split`, `SliceComputer.explicit`,
  `SliceComputer.onComputeSize`: the extents along the axis, by the conventions of the sources;
* `Describes`: the number of outputs that the points stand for;
* `Handled`: what the points have to satisfy;
* `partition_iff`: **the extents add up to that of the input exactly for such points**.
-/

namespace Mnn.Shape

/-! ### Sums in an `int` -/

theorem wrap_add_wrap (x y : ℤ) : wrap (wrap x + y) = wrap (x + y) := Int.bmod_add_bmod

/-- `std::accumulate`. -/
def accumulate (numbers : List ℤ) : ℤ := numbers.foldl (fun total n => wrap (total + n)) 0

namespace SliceComputer

inductive NetSource
  | caffe
  | tensorflow
  | tflite
  | onnx
  | torch
  deriving DecidableEq, Repr

/-- What is read of the operator. -/
structure Slice where
  sourceType : NetSource
  slicePoints : Option (List ℤ)

/-! ### Extents -/

/-- The differences of the points. -/
def differences (previous : ℤ) : List ℤ → List ℤ
  | [] => []
  | sliceIndex :: points => wrap (sliceIndex - previous) :: differences sliceIndex points

/-- caffe Slice: the last output gets what is left. -/
def caffe (points : Option (List ℤ)) (extent : ℤ) (outputSize : ℕ) :
    Except Failure (List (Option ℤ)) :=
  match points with
  | none => .error .undefined
  | some points =>
    if outputSize = 0 ∨ outputSize < points.length then .error .undefined
    else
      let outputs := (differences 0 points).map some ++
        List.replicate (outputSize - points.length) none
      .ok (outputs.set (outputSize - 1) (some (wrap (extent - points.getLastD 0))))

/-- tensorflow/Torch Split, without points or with one: TF value is num_split, Torch value is
split_size. -/
def split (op : Slice) (extent : ℤ) (outputSize : ℕ) : Except Failure (List (Option ℤ)) :=
  if outputSize = 0 then .error .undefined
  else
    let splitDim := extent.tdiv outputSize
    match op.sourceType with
    | .torch =>
      let splitDim := (op.slicePoints.map (·.headD 0)).getD splitDim
      -- the number of parts is computed, although it is not used
      if splitDim = 0 then .error .undefined
      else .ok (List.replicate outputSize (some splitDim))
    | .tensorflow =>
      let numSplits : ℤ := (op.slicePoints.map (·.headD 0)).getD outputSize
      if numSplits = 0 then .error .undefined
      else .ok (List.replicate outputSize (some (extent.tdiv numSplits)))
    | _ => .ok (List.replicate outputSize (some splitDim))

/-- The state of the loop over explicit lengths. -/
structure Lengths where
  outputs : List ℤ := []
  determineTensorIndex : Option ℕ := none
  maxSize : ℤ := 0

/-- One pass of the loop; an output whose length is open has the extent of the input for now. -/
def Lengths.visit (extent : ℤ) (s : Lengths) (length : ℤ) : Except Failure Lengths :=
  if length ≠ -1 then
    .ok { s with outputs := s.outputs ++ [length], maxSize := wrap (s.maxSize + length) }
  else if s.determineTensorIndex.isSome then
    -- Don't support two -1 points
    .error .returnsFalse
  else
    .ok { s with outputs := s.outputs ++ [extent], determineTensorIndex := s.outputs.length }

/-- The extents, if the open one is `x`. -/
def Lengths.resolved (s : Lengths) (x : ℤ) : List ℤ :=
  match s.determineTensorIndex with
  | none => s.outputs
  | some i => s.outputs.set i x

def explicit (points : List ℤ) (extent : ℤ) (outputSize : ℕ) :
    Except Failure (List (Option ℤ)) :=
  if accumulate points > extent then .error .returnsFalse
  else do
    let numberSplits := min points.length outputSize
    let s ← (points.take numberSplits).foldlM (Lengths.visit extent) {}
    let outputs := s.resolved (wrap (extent - s.maxSize))
    return outputs.map some ++ List.replicate (outputSize - numberSplits) none

/-- The extents of the outputs along the axis, as far as they are set; `runtime` is the content of a
second input. -/
def onComputeSize (op : Slice) (runtime : Option (List ℤ)) (extent : ℤ) (outputSize : ℕ) :
    Except Failure (List (Option ℤ)) :=
  if op.sourceType = .caffe then caffe op.slicePoints extent outputSize
  else
    match runtime, op.slicePoints with
    | none, none => split op extent outputSize
    | none, some [_] => split op extent outputSize
    | none, some points => explicit points extent outputSize
    | some points, _ => explicit points extent outputSize

example : onComputeSize ⟨.caffe, some [3, 8]⟩ none 10 3 = .ok [some 3, some 5, some 2] := by decide
example : onComputeSize ⟨.onnx, some [3, -1, 2]⟩ none 10 3 = .ok [some 3, some 5, some 2] := by
  decide

/-! ### What the points have to satisfy -/

/-- How many outputs the points stand for: one more than there are in caffe, and as many as lengths
are given otherwise.  A single point is a number of parts in TensorFlow and the size of a part, of
which the last may be smaller, in Torch; without points, and for a single one of the other sources,
the parts are equal, whatever their number. -/
def Describes (op : Slice) (runtime : Option (List ℤ)) (extent outputSize : ℕ) : Prop :=
  if op.sourceType = .caffe then ∃ points ∈ op.slicePoints, outputSize = points.length + 1
  else
    match runtime, op.slicePoints with
    | none, none => 0 < outputSize
    | none, some [point] => 0 < outputSize ∧
        (op.sourceType = .tensorflow → point = outputSize) ∧
        (op.sourceType = .torch → 0 < point ∧
          (outputSize : ℤ) = max 1 ((extent + point - 1) / point))
    | none, some points => outputSize = points.length
    | some points, _ => outputSize = points.length

/-- Explicit lengths add up to the extent, or leave an open one enough. -/
def Lengths.Handled (points : List ℤ) (extent : ℤ) : Prop :=
  (∀ length ∈ points, -1 ≤ length) ∧
    if -1 ∈ points then (points.filter (· ≠ -1)).sum ≤ extent else points.sum = extent

/-- Points of caffe ascend to the extent, equal parts divide it, and lengths make it up. -/
def Handled (op : Slice) (runtime : Option (List ℤ)) (extent outputSize : ℕ) : Prop :=
  if op.sourceType = .caffe then
    ∀ points ∈ op.slicePoints, (0 :: (points ++ [(extent : ℤ)])).IsChain (· ≤ ·)
  else
    match runtime, op.slicePoints with
    | none, none => outputSize ∣ extent ∧ (op.sourceType = .torch → 0 < extent)
    | none, some [point] =>
      if op.sourceType = .torch then point ∣ extent ∧ 0 < extent else outputSize ∣ extent
    | none, some points => Lengths.Handled points extent
    | some points, _ => Lengths.Handled points extent

/-! ### Caffe -/

/-- The value of an `int`. -/
def IsInt (x : ℤ) : Prop := -2 ^ 31 ≤ x ∧ x < 2 ^ 31

theorem eq_add_of_wrap_sub {previous point : ℤ} (hprevious : 0 ≤ previous) (hpoint : IsInt point)
    (hnonneg : 0 ≤ wrap (point - previous)) (hlt : previous + wrap (point - previous) < 2 ^ 31) :
    previous + wrap (point - previous) = point := by
  obtain ⟨hle, hlt'⟩ := hpoint
  rw [wrap, Int.bmod_def] at *
  split_ifs at * <;> omega

/-- Differences are parts of what is behind the point before them exactly if the points ascend. -/
theorem differences_iff {previous extent : ℤ} {points : List ℤ} (hprevious : 0 ≤ previous)
    (hextent : IsInt extent) (hpoints : ∀ point ∈ points, IsInt point) :
    (∀ e ∈ differences previous (points ++ [extent]), 0 ≤ e) ∧
        (differences previous (points ++ [extent])).sum = extent - previous ↔
      (previous :: (points ++ [extent])).IsChain (· ≤ ·) := by
  induction points generalizing previous with
  | nil =>
    rw [List.nil_append, List.isChain_pair, differences, differences, List.forall_mem_singleton,
      List.sum_singleton]
    constructor
    · rintro ⟨hnonneg, hsum⟩
      omega
    · intro hle
      have hwrap := wrap_eq (sub_nonneg.2 hle) (by have := hextent.2; omega)
      exact ⟨hwrap.ge.trans' (sub_nonneg.2 hle), hwrap⟩
  | cons point points ih =>
    obtain ⟨hpoint, hpoints⟩ := List.forall_mem_cons.1 hpoints
    rw [List.cons_append, differences, List.forall_mem_cons, List.sum_cons,
      List.isChain_cons_cons]
    constructor
    · rintro ⟨⟨hnonneg, hrest⟩, hsum⟩
      have hrest' := List.sum_nonneg hrest
      have heq := eq_add_of_wrap_sub hprevious hpoint hnonneg (by have := hextent.2; omega)
      exact ⟨by omega, (ih (by omega) hpoints).1 ⟨hrest, by omega⟩⟩
    · rintro ⟨hle, hchain⟩
      obtain ⟨hrest, hsum⟩ := (ih (hprevious.trans hle) hpoints).2 hchain
      have hwrap := wrap_eq (sub_nonneg.2 hle) (by have := hpoint.2; omega)
      rw [hwrap]
      exact ⟨⟨sub_nonneg.2 hle, hrest⟩, by omega⟩

theorem differences_concat (previous : ℤ) (points : List ℤ) (extent : ℤ) :
    differences previous (points ++ [extent]) =
      differences previous points ++ [wrap (extent - points.getLastD previous)] := by
  induction points generalizing previous with
  | nil => rfl
  | cons point points ih =>
    rw [List.cons_append, differences, ih, differences, List.getLastD_cons]
    rfl

theorem length_differences (previous : ℤ) (points : List ℤ) :
    (differences previous points).length = points.length := by
  induction points generalizing previous with
  | nil => rfl
  | cons point points ih => exact congrArg Nat.succ (ih point)

/-- One output more than there are points: the extent of the input stands for a last point. -/
theorem caffe_eq (points : List ℤ) (extent : ℤ) :
    caffe (some points) extent (points.length + 1) =
      .ok ((differences 0 (points ++ [extent])).map some) := by
  rw [caffe]
  dsimp only
  rw [if_neg (by omega), differences_concat, List.map_append, Nat.add_sub_cancel_left,
    List.set_append_right _ _ (by rw [List.length_map, length_differences]; exact le_rfl),
    List.length_map, length_differences, Nat.add_sub_cancel, Nat.sub_self]
  rfl

/-! ### Explicit lengths -/

/-- The extents that the lengths stand for, if the open one is `x`. -/
def resolve (x : ℤ) (points : List ℤ) : List ℤ := points.map fun l => if l = -1 then x else l

/-- What the state of the loop is after the lengths `seen`. -/
structure Lengths.Holds (s : Lengths) (seen : List ℤ) : Prop where
  index : ∀ i ∈ s.determineTensorIndex, i < s.outputs.length
  resolved : ∀ x, s.resolved x = resolve x seen
  maxSize : s.maxSize = wrap (seen.filter (· ≠ -1)).sum
  count : seen.count (-1) = if s.determineTensorIndex.isSome then 1 else 0

/-- One length. -/
theorem Lengths.Holds.visit {s : Lengths} {seen : List ℤ} (h : s.Holds seen) (extent length : ℤ) :
    (∃ s', s.visit extent length = .ok s' ∧ s'.Holds (seen ++ [length])) ∨
      s.visit extent length = .error .returnsFalse ∧ 1 < (seen ++ [length]).count (-1) := by
  obtain ⟨hindex, hresolved, hmaxSize, hcount⟩ := h
  have hmap : ∀ x, resolve x (seen ++ [length]) =
      s.resolved x ++ [if length = -1 then x else length] := fun x => by
    rw [hresolved, resolve, List.map_append]
    rfl
  rw [Lengths.visit]
  by_cases hlength : length = -1
  · rw [if_neg (not_not.2 hlength)]
    have hcount' : (seen ++ [length]).count (-1) = seen.count (-1) + 1 := by
      rw [hlength, List.count_append]
      rfl
    cases hs : s.determineTensorIndex with
    | some i =>
      rw [hs] at hcount
      exact .inr ⟨rfl, by rw [hcount', hcount]; exact Nat.lt_succ_self 1⟩
    | none =>
      rw [hs] at hcount
      refine .inl ⟨_, rfl, fun i hi => ?_, fun x => ?_, ?_, hcount'.trans (by rw [hcount]; rfl)⟩
      · obtain rfl := Option.some.inj hi
        rw [List.length_append]
        exact Nat.lt_succ_self _
      · have houtputs : s.resolved x = s.outputs := by rw [Lengths.resolved, hs]
        rw [hmap, if_pos hlength, houtputs]
        show (s.outputs ++ [extent]).set s.outputs.length x = s.outputs ++ [x]
        rw [List.set_append_right _ _ le_rfl, Nat.sub_self]
        rfl
      · have hfilter : [length].filter (· ≠ -1) = [] := by rw [hlength]; rfl
        rw [List.filter_append, hfilter, List.append_nil]
        exact hmaxSize
  · rw [if_pos hlength]
    refine .inl ⟨_, rfl, fun i hi => ?_, fun x => ?_, ?_, ?_⟩
    · exact (hindex i hi).trans (by rw [List.length_append]; exact Nat.lt_succ_self _)
    · rw [hmap, if_neg hlength, Lengths.resolved, Lengths.resolved]
      cases hs : s.determineTensorIndex with
      | none => rfl
      | some i => exact List.set_append_left _ _ (hindex i hs)
    · have hfilter : [length].filter (· ≠ -1) = [length] := by
        rw [List.filter_singleton, decide_eq_true hlength]
        rfl
      rw [List.filter_append, hfilter, List.sum_append, List.sum_singleton]
      show wrap (s.maxSize + length) = _
      rw [hmaxSize, wrap_add_wrap]
    · rw [List.count_append, hcount, List.count_singleton, beq_eq_false_iff_ne.2 hlength]
      rfl

/-- **The loop over the lengths.** -/
theorem foldlM_visit {s : Lengths} {seen : List ℤ} (h : s.Holds seen) (extent : ℤ)
    (points : List ℤ) :
    (∃ s', points.foldlM (Lengths.visit extent) s = .ok s' ∧ s'.Holds (seen ++ points)) ∨
      points.foldlM (Lengths.visit extent) s = .error .returnsFalse ∧
        1 < (seen ++ points).count (-1) := by
  induction points generalizing s seen with
  | nil => exact .inl ⟨s, rfl, (List.append_nil seen).symm ▸ h⟩
  | cons length points ih =>
    rw [List.foldlM_cons]
    rcases h.visit extent length with ⟨s', hvisit, hs'⟩ | ⟨hvisit, hcount⟩
    · rw [hvisit]
      have hrest := ih hs'
      rw [List.append_assoc] at hrest
      exact hrest
    · rw [hvisit]
      refine .inr ⟨rfl, hcount.trans_le ?_⟩
      rw [List.append_cons seen length points]
      exact (List.sublist_append_left _ points).count_le _

/-! ### All conventions -/

/-- Every extent is set, none is negative, and they add up to that of the input. -/
def Partition (result : Except Failure (List (Option ℤ))) (extent : ℕ) : Prop :=
  ∃ extents : List ℤ, result = .ok (extents.map some) ∧ (∀ e ∈ extents, 0 ≤ e) ∧
    extents.sum = extent

section Partition

variable {extent : ℕ}

theorem partition_ok_iff {extents : List ℤ} :
    Partition (.ok (extents.map some)) extent ↔ (∀ e ∈ extents, 0 ≤ e) ∧ extents.sum = extent := by
  constructor
  · rintro ⟨extents', heq, hspec⟩
    rwa [List.map_injective_iff.2 (Option.some_injective ℤ) (Except.ok.inj heq)]
  · exact fun hspec => ⟨extents, rfl, hspec⟩

theorem not_partition_error (failure : Failure) : ¬ Partition (.error failure) extent := by
  rintro ⟨extents, heq, -⟩
  cases heq

/-- Equal parts. -/
theorem partition_replicate_iff {n : ℕ} {x : ℤ} (hn : 0 < n) :
    Partition (.ok (List.replicate n (some x))) extent ↔ n * x = extent := by
  have hmap : List.replicate n (some x) = (List.replicate n x).map some := List.map_replicate.symm
  rw [hmap, partition_ok_iff, List.sum_replicate, nsmul_eq_mul]
  refine ⟨And.right, fun hsum => ⟨fun e he => ?_, hsum⟩⟩
  rw [List.eq_of_mem_replicate he]
  have hpos : (0 : ℤ) < n := by exact_mod_cast hn
  exact nonneg_of_mul_nonneg_right (hsum ▸ Int.natCast_nonneg extent) hpos

/-- Points of caffe. -/
theorem caffe_iff {points : List ℤ} (hextent : IsInt extent)
    (hpoints : ∀ point ∈ points, IsInt point) :
    Partition (caffe (some points) extent (points.length + 1)) extent ↔
      (0 :: (points ++ [(extent : ℤ)])).IsChain (· ≤ ·) := by
  rw [caffe_eq, partition_ok_iff, ← differences_iff le_rfl hextent hpoints, sub_zero]

theorem sum_resolve (x : ℤ) (points : List ℤ) :
    (resolve x points).sum = (points.filter (· ≠ -1)).sum + points.count (-1) * x := by
  induction points with
  | nil => rw [List.count_nil, Nat.cast_zero, zero_mul]; rfl
  | cons l points ih =>
    rw [resolve] at ih ⊢
    rw [List.map_cons, List.sum_cons, ih]
    by_cases hl : l = -1
    · rw [if_pos hl, List.filter_cons_of_neg (by simpa using hl), hl, List.count_cons_self]
      push_cast
      ring
    · rw [if_neg hl, List.filter_cons_of_pos (by simpa using hl), List.sum_cons,
        List.count_cons_of_ne hl, add_assoc]

theorem nonneg_resolve {x : ℤ} {points : List ℤ} : (∀ e ∈ resolve x points, 0 ≤ e) ↔
    (-1 ∈ points → 0 ≤ x) ∧ ∀ l ∈ points, l ≠ -1 → 0 ≤ l := by
  rw [resolve, List.forall_mem_map]
  constructor
  · intro h
    exact ⟨fun hmem => by simpa using h (-1) hmem, fun l hl hne => by simpa [hne] using h l hl⟩
  · rintro ⟨hx, hgiven⟩ l hl
    split_ifs with hopen
    · exact hx (hopen ▸ hl)
    · exact hgiven l hl hopen

theorem resolve_iff {points : List ℤ} {x : ℤ} (hextent : IsInt extent)
    (hcount : points.count (-1) ≤ 1)
    (hx : x = wrap (extent - wrap (points.filter (· ≠ -1)).sum)) :
    (∀ e ∈ resolve x points, 0 ≤ e) ∧ (resolve x points).sum = extent ↔
      Lengths.Handled points extent := by
  rw [Lengths.Handled, sum_resolve]
  by_cases hmem : -1 ∈ points
  · have hone : points.count (-1) = 1 := le_antisymm hcount (List.count_pos_iff.2 hmem)
    rw [if_pos hmem, hone, Nat.cast_one, one_mul]
    constructor
    · rintro ⟨hnonneg, hsum⟩
      obtain ⟨hx0, hgiven⟩ := nonneg_resolve.1 hnonneg
      exact ⟨fun l hl => by have := hgiven l hl; omega, by have := hx0 hmem; omega⟩
    · rintro ⟨hge, hle⟩
      have hgiven : ∀ l ∈ points, l ≠ -1 → 0 ≤ l := fun l hl hne => by
        have := hge l hl
        omega
      have hsum : 0 ≤ (points.filter (· ≠ -1)).sum := List.sum_nonneg fun l hl => by
        rw [List.mem_filter, decide_eq_true_iff] at hl
        exact hgiven l hl.1 hl.2
      have hlt := hextent.2
      rw [wrap_eq hsum (by omega), wrap_eq (by omega) (by omega)] at hx
      exact ⟨nonneg_resolve.2 ⟨fun _ => by omega, hgiven⟩, by omega⟩
  · have hzero : points.count (-1) = 0 := List.count_eq_zero.2 hmem
    have hfilter : points.filter (· ≠ -1) = points := List.filter_eq_self.2 fun l hl => by
      rw [decide_eq_true_iff]
      exact fun h => hmem (h ▸ hl)
    rw [if_neg hmem, hzero, Nat.cast_zero, zero_mul, add_zero, hfilter, nonneg_resolve]
    refine and_congr_left fun _ => ⟨fun h l hl => ?_, fun h => ⟨fun h => absurd h hmem, ?_⟩⟩
    · have := h.2 l hl fun h => hmem (h ▸ hl)
      omega
    · intro l hl hne
      have := h l hl
      omega

/-- Explicit lengths, where the computer returns `true`. -/
theorem explicit_iff {points : List ℤ} (hextent : IsInt extent)
    (hreturns : explicit points extent points.length ≠ .error .returnsFalse) :
    Partition (explicit points extent points.length) extent ↔ Lengths.Handled points extent := by
  have hstart : Lengths.Holds {} [] :=
    ⟨fun i hi => absurd hi (Option.not_mem_none i), fun x => rfl, rfl, rfl⟩
  rw [explicit] at hreturns ⊢
  by_cases htotal : accumulate points > extent
  · rw [if_pos htotal] at hreturns
    exact absurd rfl hreturns
  simp only [if_neg htotal, min_self, List.take_length, Nat.sub_self] at hreturns ⊢
  rcases foldlM_visit hstart extent points with ⟨s, hrun, hs⟩ | ⟨hrun, -⟩
  · have hcount : points.count (-1) ≤ 1 := by
      have h := hs.count
      rw [List.nil_append] at h
      split_ifs at h <;> omega
    have hcompute : Partition (.ok ((resolve (wrap (extent - s.maxSize)) points).map some)) extent ↔
        Lengths.Handled points extent := by
      rw [partition_ok_iff]
      exact resolve_iff hextent hcount (by rw [hs.maxSize]; rfl)
    rw [hrun]
    rw [← hcompute, ← List.nil_append points, ← hs.resolved]
    refine Eq.to_iff (congrArg (fun l => Partition (.ok l) extent) ?_)
    exact List.append_nil _
  · rw [hrun] at hreturns
    exact absurd rfl hreturns

theorem mul_tdiv_eq_iff {n : ℕ} : (n : ℤ) * (extent : ℤ).tdiv n = extent ↔ n ∣ extent := by
  rw [← Int.natCast_dvd_natCast]
  exact ⟨fun h => ⟨_, h.symm⟩, Int.mul_tdiv_cancel'⟩

/-- Equal parts, without points. -/
theorem split_none_iff {sourceType : NetSource} {n : ℕ} (hn : 0 < n) :
    Partition (split ⟨sourceType, none⟩ extent n) extent ↔
      n ∣ extent ∧ (sourceType = .torch → 0 < extent) := by
  have hequal : Partition (.ok (List.replicate n (some ((extent : ℤ).tdiv n)))) extent ↔
      n ∣ extent := (partition_replicate_iff hn).trans mul_tdiv_eq_iff
  rw [split, if_neg hn.ne']
  cases sourceType with
  | torch =>
    show Partition (if (extent : ℤ).tdiv n = 0 then .error .undefined
      else .ok (List.replicate n (some ((extent : ℤ).tdiv n)))) extent ↔ _
    by_cases hzero : (extent : ℤ).tdiv n = 0
    · rw [if_pos hzero]
      refine iff_of_false (not_partition_error _) fun ⟨hdvd, hpos⟩ => ?_
      have hmul := mul_tdiv_eq_iff.2 hdvd
      have := hpos rfl
      rw [hzero, mul_zero] at hmul
      omega
    · rw [if_neg hzero, hequal]
      refine ⟨fun hdvd => ⟨hdvd, fun _ => Nat.pos_of_ne_zero fun h => hzero ?_⟩, And.left⟩
      rw [h, Nat.cast_zero, Int.zero_tdiv]
  | tensorflow =>
    show Partition (if (n : ℤ) = 0 then .error .undefined
      else .ok (List.replicate n (some ((extent : ℤ).tdiv n)))) extent ↔ _
    rw [if_neg (by omega), hequal]
    exact ⟨fun h => ⟨h, NetSource.noConfusion⟩, And.left⟩
  | caffe => exact hequal.trans ⟨fun h => ⟨h, NetSource.noConfusion⟩, And.left⟩
  | tflite => exact hequal.trans ⟨fun h => ⟨h, NetSource.noConfusion⟩, And.left⟩
  | onnx => exact hequal.trans ⟨fun h => ⟨h, NetSource.noConfusion⟩, And.left⟩

/-- The number or the size of the parts. -/
theorem split_some_iff {sourceType : NetSource} {point : ℤ} {n : ℕ} (hn : 0 < n)
    (htensorflow : sourceType = .tensorflow → point = n)
    (htorch : sourceType = .torch → 0 < point ∧
      (n : ℤ) = max 1 ((extent + point - 1) / point)) :
    Partition (split ⟨sourceType, some [point]⟩ extent n) extent ↔
      if sourceType = .torch then point ∣ extent ∧ 0 < extent else n ∣ extent := by
  have hequal : Partition (.ok (List.replicate n (some ((extent : ℤ).tdiv n)))) extent ↔
      n ∣ extent := (partition_replicate_iff hn).trans mul_tdiv_eq_iff
  rw [split, if_neg hn.ne']
  cases sourceType with
  | torch =>
    obtain ⟨hpoint, hcount⟩ := htorch rfl
    show Partition (if point = 0 then .error .undefined
      else .ok (List.replicate n (some point))) extent ↔ _
    rw [if_neg hpoint.ne', partition_replicate_iff hn, if_pos rfl]
    constructor
    · intro hmul
      exact ⟨⟨n, by rw [mul_comm]; exact hmul.symm⟩, by
        have : (0 : ℤ) < n * point := mul_pos (by omega) hpoint
        omega⟩
    · rintro ⟨⟨k, hk⟩, hpos⟩
      have hkpos : 0 < k := by
        by_contra hle
        have : point * k ≤ 0 := mul_nonpos_of_nonneg_of_nonpos hpoint.le (not_lt.1 hle)
        omega
      have hdiv : ((extent : ℤ) + point - 1) / point = k := by
        rw [hk, add_sub_assoc, Int.mul_add_ediv_left _ _ hpoint.ne',
          Int.ediv_eq_zero_of_lt (by omega) (by omega), add_zero]
      rw [hcount, hdiv, max_eq_right (by omega), hk, mul_comm]
  | tensorflow =>
    obtain rfl := htensorflow rfl
    show Partition (if (n : ℤ) = 0 then .error .undefined
      else .ok (List.replicate n (some ((extent : ℤ).tdiv n)))) extent ↔ _
    rw [if_neg (by omega)]
    exact hequal
  | caffe => exact hequal
  | tflite => exact hequal
  | onnx => exact hequal

end Partition

/-- **The extents of the parts**, for as many outputs as the points stand for, where the computer
returns `true`. -/
theorem partition_iff {op : Slice} {runtime : Option (List ℤ)} {extent outputSize : ℕ}
    (hextent : IsInt extent) (hpoints : ∀ points ∈ op.slicePoints, ∀ point ∈ points, IsInt point)
    (hdescribes : Describes op runtime extent outputSize)
    (hreturns : onComputeSize op runtime extent outputSize ≠ .error .returnsFalse) :
    Partition (onComputeSize op runtime extent outputSize) extent ↔
      Handled op runtime extent outputSize := by
  obtain ⟨sourceType, slicePoints⟩ := op
  unfold onComputeSize at hreturns ⊢
  unfold Describes at hdescribes
  unfold Handled
  by_cases hcaffe : sourceType = .caffe
  · rw [if_pos hcaffe] at hdescribes ⊢
    rw [if_pos hcaffe]
    obtain ⟨points, hmem, rfl⟩ := hdescribes
    obtain rfl : slicePoints = some points := hmem
    rw [caffe_iff hextent (hpoints points rfl)]
    exact ⟨fun h points' hmem' => Option.some.inj hmem' ▸ h, fun h => h points rfl⟩
  · simp only [if_neg hcaffe] at hdescribes hreturns ⊢
    match runtime, slicePoints with
    | none, none => exact split_none_iff hdescribes
    | none, some [point] => exact split_some_iff hdescribes.1 hdescribes.2.1 hdescribes.2.2
    | none, some [] =>
      obtain rfl : outputSize = _ := hdescribes
      exact explicit_iff hextent hreturns
    | none, some (_ :: _ :: _) =>
      obtain rfl : outputSize = _ := hdescribes
      exact explicit_iff hextent hreturns
    | some points, _ =>
      obtain rfl : outputSize = points.length := hdescribes
      exact explicit_iff hextent hreturns

end SliceComputer

end Mnn.Shape
