import Mnn.Geometry.BroadCastDims
import Mnn.Geometry.CumSum

/-!
# `GeometryReverseSequence`

The first entries along an axis in reverse order, as many as a vector says for each batch
(`source/geometry/GeometryReverseSequence.cpp`).

* `onCompute`: a region for the reversed entries and one for the others, by batches;
* `place`: an element by its places before, on, between and behind the two axes;
* `copies`, `card_writes`: every element is copied, and there are no more writes than elements;
* `reversedIndex`: the index of the entry that is copied;
* `reverses`: **every address is written once, with that entry**; with the running sums it is
  `reverseSequence_cumSum`.
-/

namespace Mnn.Recompute.GeometryReverseSequence

open Permute (writes)
open Lib.Broadcast (addressOf)

/-! ### Regions -/

/-- `Tensor::stride` of a linear layout. -/
def stride (t : Tensor) (i : ℕ) : ℤ := t.inside i

section Regions

variable (input output : Tensor) (seqDim batchDim : ℕ)

/-- The first of the two axes. -/
def mid0 : ℕ := min seqDim batchDim

/-- The second of the two axes. -/
def mid1 : ℕ := max seqDim batchDim

def insideStride : ℤ := stride input (mid1 seqDim batchDim)

def outsideSize : ℕ := input.outside (mid0 seqDim batchDim)

def outSideStride : ℤ :=
  if 0 < mid0 seqDim batchDim then stride input (mid0 seqDim batchDim - 1) else 1

def midSize : ℕ := ((input.shape.take (mid1 seqDim batchDim)).drop (mid0 seqDim batchDim + 1)).prod

def midStride : ℤ :=
  if 0 < mid1 seqDim batchDim then stride input (mid1 seqDim batchDim - 1) else 1

/-- The first `q` entries of a batch, in the part `o` before the axes. -/
def reversedSlice (batch : ℕ) (q : ℤ) (o : ℕ) : Region Ref where
  src := {
    offset := (q - 1) * stride input seqDim + batch * stride input batchDim +
      o * outSideStride input seqDim batchDim
    stride := ![-stride input seqDim, midStride input seqDim batchDim, 1] }
  dst := {
    offset := batch * stride output batchDim + o * outSideStride input seqDim batchDim
    stride := ![stride output seqDim, midStride input seqDim batchDim, 1] }
  size := ![q, midSize input seqDim batchDim, insideStride input seqDim batchDim]
  origin := .input 0

/-- The other entries. -/
def leftSlice (batch : ℕ) (q : ℤ) (o : ℕ) : Region Ref where
  src := {
    offset := q * stride input seqDim + batch * stride input batchDim +
      o * outSideStride input seqDim batchDim
    stride := ![stride input seqDim, midStride input seqDim batchDim, 1] }
  dst := {
    offset := q * stride output seqDim + batch * stride output batchDim +
      o * outSideStride input seqDim batchDim
    stride := ![stride output seqDim, midStride input seqDim batchDim, 1] }
  size := ![input.length seqDim - q, midSize input seqDim batchDim,
    insideStride input seqDim batchDim]
  origin := .input 0

/-- The regions of a batch with `q` entries to reverse. -/
def slices (batch : ℕ) (q : ℤ) : List (Region Ref) :=
  (List.range (outsideSize input seqDim batchDim)).map
      (reversedSlice input output seqDim batchDim batch q) ++
    if q < input.length seqDim then
      (List.range (outsideSize input seqDim batchDim)).map
        (leftSlice input output seqDim batchDim batch q)
    else []

end Regions

/-- `param` are `seqDim` and `batchDim` of the operator. -/
def onCompute (param : Option (ℤ × ℤ)) (input reverse output : Tensor) :
    Option (List (Region Ref)) := do
  let (seqDim, batchDim) ← param
  let seqDim := frontAxis input seqDim
  let batchDim := frontAxis input batchDim
  guard (seqDim ≠ batchDim)
  guard (input.type.bits = 32)
  guard (reverse.length 0 = input.length batchDim)
  let regions ← (List.range (input.length batchDim)).mapM fun batch : ℕ => do
    let q ← reverse.host[batch]?
    guard (1 ≤ q ∧ q ≤ input.length seqDim)
    return slices input output seqDim batchDim batch q
  return regions.flatten

/-! ### Elements -/

/-- The element at place `z` before the axes, `p` and `q` on them, `m` between and `x` behind. -/
def place (t : Tensor) (a b z p m q x : ℕ) : ℕ :=
  cell (t.inside b) (t.length b) (cell ((t.shape.take b).drop (a + 1)).prod (t.length a) z p m) q x

section Place

variable {t : Tensor} {a b : ℕ}

theorem prod_drop {k : ℕ} (hk : k < t.shape.length) :
    (t.shape.drop k).prod = t.length k * t.inside k := by
  rw [List.drop_eq_getElem_cons hk, List.prod_cons, Tensor.length, List.getD_eq_getElem _ _ hk,
    Tensor.inside]

/-- The elements behind the first axis are those between the axes, on the second and behind it. -/
theorem inside_first (hab : a < b) (hb : b < t.shape.length) : t.inside a =
    ((t.shape.take b).drop (a + 1)).prod * (t.length b * t.inside b) := by
  have hdrop : (t.shape.drop (a + 1)).drop (b - (a + 1)) = t.shape.drop b := by
    rw [List.drop_drop]
    congr 1
    omega
  rw [← prod_drop hb, ← hdrop, List.drop_take, List.prod_take_mul_prod_drop, Tensor.inside]

/-- The addresses when an index moves along both axes. -/
theorem addressOf_set_set (hab : a < b) (hb : b < t.shape.length) {i : List ℕ}
    (hi : i.length = t.shape.length) (p q : ℕ) :
    addressOf t.shape ((i.set a p).set b q) =
      place t a b (addressOf (t.shape.take a) (i.take a)) p
        (addressOf ((t.shape.take b).drop (a + 1)) ((i.take b).drop (a + 1))) q
        (addressOf (t.shape.drop (b + 1)) (i.drop (b + 1))) := by
  have htake : (i.take b).length = (t.shape.take b).length := by
    rw [List.length_take, List.length_take, hi]
  have ha : a < (t.shape.take b).length := by
    rw [List.length_take]
    omega
  have hlength : (t.shape.take b).getD a 1 = t.length a := by
    rw [List.getD_eq_getElem _ _ ha, List.getElem_take, Tensor.length, List.getD_eq_getElem]
  rw [addressOf_set (by rw [List.length_set, hi]) hb, List.take_set, addressOf_set htake ha,
    hlength, List.drop_set_of_lt (by omega), List.take_take, List.take_take, min_eq_left hab.le]
  rfl

theorem exists_place (hab : a < b) (hb : b < t.shape.length) {o : ℕ} (ho : o < t.rawSize) :
    ∃ z < t.outside a, ∃ p < t.length a, ∃ m < ((t.shape.take b).drop (a + 1)).prod,
      ∃ q < t.length b, ∃ x < t.inside b, o = place t a b z p m q x := by
  rw [Tensor.rawSize_eq hb] at ho
  obtain ⟨z', hz', q, hq, x, hx, rfl⟩ := exists_cell ho
  have houtside : t.outside b =
      t.outside a * t.length a * ((t.shape.take b).drop (a + 1)).prod := by
    have ha : a < (t.shape.take b).length := by
      rw [List.length_take]
      omega
    have hsize := Tensor.rawSize_eq (t := { shape := t.shape.take b }) ha
    rw [Tensor.outside, Tensor.outside]
    refine hsize.trans ?_
    rw [Tensor.outside, Tensor.length, List.take_take, min_eq_left hab.le,
      List.getD_eq_getElem _ _ ha, List.getElem_take, Tensor.length, List.getD_eq_getElem]
    rfl
  rw [houtside] at hz'
  obtain ⟨z, hz, p, hp, m, hm, rfl⟩ := exists_cell hz'
  exact ⟨z, hz, p, hp, m, hm, q, hq, x, hx, rfl⟩

theorem stride_pred {k : ℕ} (hk : 0 < k) (hkt : k < t.shape.length) :
    stride t (k - 1) = t.length k * t.inside k := by
  rw [stride, Tensor.inside, Nat.sub_add_cancel hk, prod_drop hkt, Nat.cast_mul]

/-- The places by the strides of the code. -/
theorem cast_place (hab : a < b) (hb : b < t.shape.length) {z : ℕ} (hz : z < t.outside a)
    (p m q x : ℕ) : (place t a b z p m q x : ℤ) =
      z * (if 0 < a then stride t (a - 1) else 1) + p * stride t a +
        m * (if 0 < b then stride t (b - 1) else 1) + q * stride t b + x := by
  have hfirst : stride t a = ((t.shape.take b).drop (a + 1)).prod * (t.length b * t.inside b) := by
    rw [stride, inside_first hab hb]
    push_cast
    rfl
  have houter : (z : ℤ) * (if 0 < a then stride t (a - 1) else 1) =
      z * (t.length a * stride t a) := by
    split_ifs with ha
    · rw [stride_pred ha (hab.trans hb), stride]
    · obtain rfl : a = 0 := by omega
      obtain rfl : z = 0 := by
        rw [Tensor.outside, List.take_zero, List.prod_nil] at hz
        omega
      simp
  rw [houter, if_pos (by omega), stride_pred (by omega) hb, hfirst, stride]
  simp only [place, cell]
  push_cast
  ring

end Place

section Slices

variable {input : Tensor} {seqDim batchDim : ℕ}

/-- The element at place `s` of the sequence and `n` of the batches. -/
def placeOf (t : Tensor) (seqDim batchDim z s n m x : ℕ) : ℕ :=
  if seqDim < batchDim then place t seqDim batchDim z s m n x
  else place t batchDim seqDim z n m s x

variable (hne : seqDim ≠ batchDim) (hseq : seqDim < input.shape.length)
  (hbatch : batchDim < input.shape.length)

include hne hseq hbatch

theorem cast_placeOf {z : ℕ} (hz : z < outsideSize input seqDim batchDim) (s n m x : ℕ) :
    (placeOf input seqDim batchDim z s n m x : ℤ) =
      z * outSideStride input seqDim batchDim + s * stride input seqDim +
        n * stride input batchDim + m * midStride input seqDim batchDim + x := by
  rw [outsideSize] at hz
  rw [outSideStride, midStride]
  rcases Nat.lt_or_gt_of_ne hne with hlt | hlt
  · have h0 : mid0 seqDim batchDim = seqDim := min_eq_left hlt.le
    have h1 : mid1 seqDim batchDim = batchDim := max_eq_right hlt.le
    rw [h0] at hz
    rw [placeOf, if_pos hlt, cast_place hlt hbatch hz, h0, h1]
    ring
  · have h0 : mid0 seqDim batchDim = batchDim := min_eq_right hlt.le
    have h1 : mid1 seqDim batchDim = seqDim := max_eq_left hlt.le
    rw [h0] at hz
    rw [placeOf, if_neg hlt.not_gt, cast_place hlt hseq hz, h0, h1]
    ring

/-- The reversed entries of a batch. -/
theorem reversedSlice_copies {z k n m x q : ℕ} (hz : z < outsideSize input seqDim batchDim)
    (hk : k < q) (hm : m < midSize input seqDim batchDim)
    (hx : (x : ℤ) < insideStride input seqDim batchDim) :
    (reversedSlice input { shape := input.shape } seqDim batchDim n q z).Copies
      (placeOf input seqDim batchDim z (q - 1 - k) n m x)
      (placeOf input seqDim batchDim z k n m x) := by
  have hcast : ((q - 1 - k : ℕ) : ℤ) = q - 1 - k := by omega
  refine ⟨![(k : ℤ), (m : ℤ), (x : ℤ)], fun j => ?_, ?_, ?_⟩
  · fin_cases j <;> simp [reversedSlice] <;> omega
  · rw [cast_placeOf hne hseq hbatch hz, hcast]
    simp only [reversedSlice, View.address, Matrix.cons_val]
    ring
  · rw [cast_placeOf hne hseq hbatch hz]
    simp only [reversedSlice, View.address, Matrix.cons_val, stride, Tensor.inside]
    ring

/-- The other entries of a batch. -/
theorem leftSlice_copies {z k n m x q : ℕ} (hz : z < outsideSize input seqDim batchDim)
    (hqk : q ≤ k) (hk : k < input.length seqDim) (hm : m < midSize input seqDim batchDim)
    (hx : (x : ℤ) < insideStride input seqDim batchDim) :
    (leftSlice input { shape := input.shape } seqDim batchDim n q z).Copies
      (placeOf input seqDim batchDim z k n m x) (placeOf input seqDim batchDim z k n m x) := by
  refine ⟨![(k - q : ℤ), (m : ℤ), (x : ℤ)], fun j => ?_, ?_, ?_⟩
  · fin_cases j <;> simp [leftSlice] <;> omega
  · rw [cast_placeOf hne hseq hbatch hz]
    simp only [leftSlice, View.address, Matrix.cons_val]
    ring
  · rw [cast_placeOf hne hseq hbatch hz]
    simp only [leftSlice, View.address, Matrix.cons_val, stride, Tensor.inside]
    ring

end Slices

/-! ### All batches -/

/-- What the operator asks of its inputs. -/
structure Valid (input reverse : Tensor) (seqDim batchDim : ℤ) : Prop where
  seqDim_low : -(input.dimensions : ℤ) ≤ seqDim
  seqDim_high : seqDim < input.dimensions
  batchDim_low : -(input.dimensions : ℤ) ≤ batchDim
  batchDim_high : batchDim < input.dimensions
  distinct : frontAxis input seqDim ≠ frontAxis input batchDim
  bits : input.type.bits = 32
  shape : reverse.shape = [input.length (frontAxis input batchDim)]
  host : reverse.host.length = input.length (frontAxis input batchDim)
  entries : ∀ q ∈ reverse.host, 1 ≤ q ∧ q ≤ input.length (frontAxis input seqDim)

theorem frontAxis_lt {input : Tensor} {axis : ℤ} (hlow : -(input.dimensions : ℤ) ≤ axis)
    (hhigh : axis < input.dimensions) : frontAxis input axis < input.shape.length := by
  have hdims : (input.dimensions : ℤ) = input.shape.length := rfl
  simp only [frontAxis, Shape.fromEnd]
  split_ifs <;> omega

/-- How many entries of a batch are reversed. -/
def sequenceLength (reverse : Tensor) (batch : ℕ) : ℕ := (reverse.host.getD batch 0).toNat

/-- Where the entry at place `s` of the sequence comes from. -/
def reversedPlace (q s : ℕ) : ℕ := if s < q then q - 1 - s else s

section Batches

variable {input reverse : Tensor} {seqDim batchDim : ℕ}

/-- The regions of the batches. -/
def batchRegions (input reverse : Tensor) (seqDim batchDim : ℕ) : List (List (Region Ref)) :=
  (List.range (input.length batchDim)).map fun batch : ℕ =>
    slices input { shape := input.shape } seqDim batchDim batch (sequenceLength reverse batch)

theorem onCompute_eq {seqDim batchDim : ℤ} (h : Valid input reverse seqDim batchDim) :
    onCompute (some (seqDim, batchDim)) input reverse { shape := input.shape } =
      some (batchRegions input reverse (frontAxis input seqDim)
        (frontAxis input batchDim)).flatten := by
  have hlength : reverse.length 0 = input.length (frontAxis input batchDim) := by
    rw [Tensor.length, h.shape]
    rfl
  have hmap : ((List.range (input.length (frontAxis input batchDim))).mapM fun batch : ℕ => do
      let q ← reverse.host[batch]?
      guard (1 ≤ q ∧ q ≤ input.length (frontAxis input seqDim))
      return slices input { shape := input.shape } (frontAxis input seqDim)
        (frontAxis input batchDim) batch q) =
      some (batchRegions input reverse (frontAxis input seqDim) (frontAxis input batchDim)) := by
    refine Lib.mapM_eq_some fun batch hbatch => ?_
    have hlt : batch < reverse.host.length := by
      rw [h.host]
      exact List.mem_range.1 hbatch
    have hentry := h.entries _ (List.getElem_mem hlt)
    have hcast : ((reverse.host[batch].toNat : ℕ) : ℤ) = reverse.host[batch] :=
      Int.toNat_of_nonneg (by omega)
    rw [List.getElem?_eq_getElem hlt, sequenceLength, List.getD_eq_getElem _ _ hlt, hcast]
    simp [guard, hentry]
  simp only [Option.bind_eq_bind] at hmap
  simp only [onCompute, Option.bind_eq_bind, Option.bind_some]
  rw [hmap]
  simp [guard, h.distinct, h.bits, hlength]

theorem origin_eq {reg : Region Ref}
    (hreg : reg ∈ (batchRegions input reverse seqDim batchDim).flatten) :
    reg.origin = .input 0 := by
  obtain ⟨l, hl, hreg⟩ := List.mem_flatten.1 hreg
  obtain ⟨batch, -, rfl⟩ := List.mem_map.1 hl
  rcases List.mem_append.1 hreg with hreg | hreg
  · obtain ⟨o, -, rfl⟩ := List.mem_map.1 hreg
    rfl
  · split_ifs at hreg
    · obtain ⟨o, -, rfl⟩ := List.mem_map.1 hreg
      rfl
    · exact absurd hreg List.not_mem_nil

theorem mem_reversedSlice {batch q z : ℕ} (hz : z < outsideSize input seqDim batchDim) :
    reversedSlice input { shape := input.shape } seqDim batchDim batch q z ∈
      slices input { shape := input.shape } seqDim batchDim batch q :=
  List.mem_append_left _ (List.mem_map_of_mem (List.mem_range.2 hz))

theorem mem_leftSlice {batch q z : ℕ} (hq : q < input.length seqDim)
    (hz : z < outsideSize input seqDim batchDim) :
    leftSlice input { shape := input.shape } seqDim batchDim batch q z ∈
      slices input { shape := input.shape } seqDim batchDim batch q := by
  refine List.mem_append_right _ ?_
  rw [if_pos (by exact_mod_cast hq)]
  exact List.mem_map_of_mem (List.mem_range.2 hz)

section Writes

variable (hne : seqDim ≠ batchDim) (hseq : seqDim < input.shape.length)
  (hbatch : batchDim < input.shape.length)

include hne hseq hbatch

variable (reverse) in
/-- Every element is copied from the reversed place. -/
theorem copies {z s n m x : ℕ} (hz : z < outsideSize input seqDim batchDim)
    (hs : s < input.length seqDim) (hn : n < input.length batchDim)
    (hm : m < midSize input seqDim batchDim) (hx : (x : ℤ) < insideStride input seqDim batchDim) :
    ∃ reg ∈ (batchRegions input reverse seqDim batchDim).flatten, reg.Copies
      (placeOf input seqDim batchDim z (reversedPlace (sequenceLength reverse n) s) n m x)
      (placeOf input seqDim batchDim z s n m x) := by
  have hmem : slices input { shape := input.shape } seqDim batchDim n (sequenceLength reverse n) ∈
      batchRegions input reverse seqDim batchDim := List.mem_map_of_mem (List.mem_range.2 hn)
  rw [reversedPlace]
  split_ifs with hlt
  · exact ⟨_, List.mem_flatten.2 ⟨_, hmem, mem_reversedSlice hz⟩,
      reversedSlice_copies hne hseq hbatch hz hlt hm hx⟩
  · have hle := not_lt.1 hlt
    exact ⟨_, List.mem_flatten.2 ⟨_, hmem, mem_leftSlice (hle.trans_lt hs) hz⟩,
      leftSlice_copies hne hseq hbatch hz hle hs hm hx⟩

/-- The elements by their places on the two axes. -/
theorem exists_placeOf {o : ℕ} (ho : o < input.rawSize) :
    ∃ z < outsideSize input seqDim batchDim, ∃ s < input.length seqDim,
      ∃ n < input.length batchDim, ∃ m < midSize input seqDim batchDim, ∃ x : ℕ,
        (x : ℤ) < insideStride input seqDim batchDim ∧
          o = placeOf input seqDim batchDim z s n m x := by
  simp only [outsideSize, midSize, insideStride, stride, Nat.cast_lt, placeOf]
  rcases Nat.lt_or_gt_of_ne hne with hlt | hlt
  · have h0 : mid0 seqDim batchDim = seqDim := min_eq_left hlt.le
    have h1 : mid1 seqDim batchDim = batchDim := max_eq_right hlt.le
    obtain ⟨z, hz, s, hs, m, hm, n, hn, x, hx, rfl⟩ := exists_place hlt hbatch ho
    rw [h0, h1]
    exact ⟨z, hz, s, hs, n, hn, m, hm, x, hx, (if_pos hlt).symm⟩
  · have h0 : mid0 seqDim batchDim = batchDim := min_eq_right hlt.le
    have h1 : mid1 seqDim batchDim = seqDim := max_eq_left hlt.le
    obtain ⟨z, hz, n, hn, m, hm, s, hs, x, hx, rfl⟩ := exists_place hlt hseq ho
    rw [h0, h1]
    exact ⟨z, hz, s, hs, n, hn, m, hm, x, hx, (if_neg hlt.not_gt).symm⟩

/-- The extents by which the regions are made. -/
theorem rawSize_eq : input.rawSize = outsideSize input seqDim batchDim *
    (input.length seqDim * (input.length batchDim *
      (midSize input seqDim batchDim * (insideStride input seqDim batchDim).toNat))) := by
  have key : ∀ {a b : ℕ}, a < b → b < input.shape.length → input.rawSize =
      input.outside a * (input.length a * (((input.shape.take b).drop (a + 1)).prod *
        (input.length b * input.inside b))) := by
    intro a b hab hb
    rw [Tensor.rawSize_eq (hab.trans hb), inside_first hab hb, Nat.mul_assoc]
  simp only [outsideSize, midSize, insideStride, stride, Int.toNat_natCast]
  rcases Nat.lt_or_gt_of_ne hne with hlt | hlt
  · have h0 : mid0 seqDim batchDim = seqDim := min_eq_left hlt.le
    have h1 : mid1 seqDim batchDim = batchDim := max_eq_right hlt.le
    rw [h0, h1, key hlt hbatch]
    ring
  · have h0 : mid0 seqDim batchDim = batchDim := min_eq_right hlt.le
    have h1 : mid1 seqDim batchDim = seqDim := max_eq_left hlt.le
    rw [h0, h1, key hlt hseq]
    ring

omit hne hseq hbatch in
/-- A batch has as many writes as elements. -/
theorem sum_slices {batch q : ℕ} (hq : q ≤ input.length seqDim) :
    ((slices input { shape := input.shape } seqDim batchDim batch q).map fun reg =>
      (boxIndices reg.size).length).sum = outsideSize input seqDim batchDim *
        (input.length seqDim *
          (midSize input seqDim batchDim * (insideStride input seqDim batchDim).toNat)) := by
  have hreversed : ∀ o, (boxIndices (reversedSlice input { shape := input.shape } seqDim batchDim
      batch q o).size).length =
        q * (midSize input seqDim batchDim * (insideStride input seqDim batchDim).toNat) :=
    fun o => card_boxIndices _
  have hleft : ∀ o, (boxIndices (leftSlice input { shape := input.shape } seqDim batchDim
      batch q o).size).length = (input.length seqDim - q) *
        (midSize input seqDim batchDim * (insideStride input seqDim batchDim).toNat) := by
    intro o
    rw [card_boxIndices]
    simp [leftSlice]
  rw [slices, List.map_append, List.sum_append, List.map_map]
  simp only [Function.comp_def, hreversed, List.map_const', List.sum_replicate, List.length_range,
    smul_eq_mul]
  split_ifs with hlt
  · rw [List.map_map]
    simp only [Function.comp_def, hleft, List.map_const', List.sum_replicate, List.length_range,
      smul_eq_mul]
    rw [← Nat.mul_add, ← Nat.add_mul, Nat.add_sub_cancel' hq]
  · obtain rfl : q = input.length seqDim := by omega
    rw [List.map_nil, List.sum_nil, Nat.add_zero]

theorem card_writes (hq : ∀ n < input.length batchDim,
    sequenceLength reverse n ≤ input.length seqDim) :
    (writes (batchRegions input reverse seqDim batchDim).flatten).card = input.rawSize := by
  have hbatches : ∀ l ∈ (batchRegions input reverse seqDim batchDim),
      (l.map fun reg => (boxIndices reg.size).length).sum =
        outsideSize input seqDim batchDim * (input.length seqDim *
          (midSize input seqDim batchDim * (insideStride input seqDim batchDim).toNat)) := by
    intro l hl
    obtain ⟨n, hn, rfl⟩ := List.mem_map.1 hl
    exact sum_slices (hq n (List.mem_range.1 hn))
  rw [card_writes_eq_sum, List.map_flatten, List.sum_flatten, List.map_map, Function.comp_def,
    List.map_congr_left hbatches, List.map_const', List.sum_replicate, batchRegions,
    List.length_map, List.length_range, smul_eq_mul, rawSize_eq hne hseq hbatch]
  ring

/-- The addresses of an index that moves along the sequence. -/
theorem addressOf_set_eq {i : List ℕ} (hi : List.Forall₂ (· < ·) i input.shape) :
    ∃ z < outsideSize input seqDim batchDim, ∃ m < midSize input seqDim batchDim, ∃ x : ℕ,
      (x : ℤ) < insideStride input seqDim batchDim ∧
        ∀ s, addressOf input.shape (i.set seqDim s) =
          placeOf input seqDim batchDim z s (i.getD batchDim 0) m x := by
  have hlen : i.length = input.shape.length := hi.length_eq
  have hself : (i.set batchDim (i.getD batchDim 0)) = i := by
    rw [List.getD_eq_getElem _ _ (hlen ▸ hbatch), List.set_getElem_self]
  simp only [outsideSize, midSize, insideStride, stride, Nat.cast_lt, placeOf]
  rcases Nat.lt_or_gt_of_ne hne with hlt | hlt
  · have h0 : mid0 seqDim batchDim = seqDim := min_eq_left hlt.le
    have h1 : mid1 seqDim batchDim = batchDim := max_eq_right hlt.le
    rw [h0, h1]
    refine ⟨_, addressOf_lt (List.forall₂_take seqDim hi), _, addressOf_lt (List.forall₂_drop
      (seqDim + 1) (List.forall₂_take batchDim hi)), _, addressOf_lt (List.forall₂_drop
      (batchDim + 1) hi), fun s => ?_⟩
    rw [if_pos hlt, ← addressOf_set_set hlt hbatch hlen, List.set_comm _ _ hlt.ne, hself]
  · have h0 : mid0 seqDim batchDim = batchDim := min_eq_right hlt.le
    have h1 : mid1 seqDim batchDim = seqDim := max_eq_left hlt.le
    rw [h0, h1]
    refine ⟨_, addressOf_lt (List.forall₂_take batchDim hi), _, addressOf_lt (List.forall₂_drop
      (batchDim + 1) (List.forall₂_take seqDim hi)), _, addressOf_lt (List.forall₂_drop
      (seqDim + 1) hi), fun s => ?_⟩
    rw [if_neg hlt.not_gt, ← addressOf_set_set hlt hseq hlen, hself]

end Writes

end Batches

/-- The index of the entry that is copied: the first entries of the sequence in reverse order. -/
def reversedIndex (lengths : List ℤ) (seqDim batchDim : ℕ) (i : List ℕ) : List ℕ :=
  let len := (lengths.getD (i.getD batchDim 0) 0).toNat
  let s := i.getD seqDim 0
  i.set seqDim (if s < len then len - 1 - s else s)

/-- The regions write every address once, with the entry at the reversed index. -/
def Reverses (V : Type*) [Zero V] (input reverse : Tensor) (seqDim batchDim : ℤ) : Prop :=
  ∃ regions, onCompute (some (seqDim, batchDim)) input reverse { shape := input.shape } =
      some regions ∧
    (writes regions).map Prod.snd = (Multiset.range input.rawSize).map (fun n : ℕ => (n : ℤ)) ∧
    ∀ (value : Ref → ℤ → V) (i : List ℕ), List.Forall₂ (· < ·) i input.shape →
      raster regions value (addressOf input.shape i) = value (.input 0) (addressOf input.shape
        (reversedIndex reverse.host (frontAxis input seqDim) (frontAxis input batchDim) i))

/-- **Reversed sequences.** -/
theorem reverses {V : Type*} [Zero V] {input reverse : Tensor} {seqDim batchDim : ℤ}
    (h : Valid input reverse seqDim batchDim) : Reverses V input reverse seqDim batchDim := by
  have hseq := frontAxis_lt h.seqDim_low h.seqDim_high
  have hbatch := frontAxis_lt h.batchDim_low h.batchDim_high
  have hne := h.distinct
  have hq : ∀ n < input.length (frontAxis input batchDim),
      sequenceLength reverse n ≤ input.length (frontAxis input seqDim) := by
    intro n hn
    have hlt : n < reverse.host.length := h.host.symm ▸ hn
    have hentry := h.entries _ (List.getElem_mem hlt)
    rw [sequenceLength, List.getD_eq_getElem _ _ hlt]
    omega
  have hsnd := map_snd_writes (fun o ho => ?_) (card_writes hne hseq hbatch hq).le
  · refine ⟨_, onCompute_eq h, hsnd, fun value i hi => ?_⟩
    have hnodup : ((writes (batchRegions input reverse (frontAxis input seqDim)
        (frontAxis input batchDim)).flatten).map Prod.snd).Nodup := by
      rw [hsnd]
      exact (Multiset.nodup_range _).map Nat.cast_injective
    obtain ⟨z, hz, m, hm, x, hx, haddress⟩ := addressOf_set_eq hne hseq hbatch hi
    obtain ⟨reg, hreg, hcopies⟩ := copies reverse hne hseq hbatch hz
      (getD_lt hi hseq) (getD_lt hi hbatch) hm hx
    have hself : i.set (frontAxis input seqDim) (i.getD (frontAxis input seqDim) 0) = i := by
      rw [List.getD_eq_getElem _ _ (hi.length_eq ▸ hseq), List.set_getElem_self]
    rw [reversedIndex, haddress]
    nth_rewrite 1 [← hself]
    rw [haddress]
    exact Permute.raster_of_writes value hnodup (fun reg hreg => origin_eq hreg)
      (Permute.mem_writes.2 ⟨reg, hreg, hcopies⟩)
  · obtain ⟨z, hz, s, hs, n, hn, m, hm, x, hx, rfl⟩ := exists_placeOf hne hseq hbatch ho
    obtain ⟨reg, hreg, hcopies⟩ := copies reverse hne hseq hbatch hz hs hn hm hx
    exact ⟨reg, hreg, _, hcopies⟩

end Mnn.Recompute.GeometryReverseSequence
