import Mnn.Geometry.PackedBlit
import Mnn.Lib.Loops

/-!
# Copies of a region

`_blit` (`source/backend/cpu/CPURaster.cpp`) copies a region of a raster in one of four ways:
`size[0]` blocks, a transposition (`OpCommonUtils::isTranspose`, `_transpose`), rows, or elements
one by one.

* `isTranspose`, `transpose`, `selectUnitProc`, `blit`: the code, as lists of assignments from
  source to destination addresses of elements;
* `plain`: the assignments of the three loops over a region;
* `Blocks`: the test of the first way, which leaves out the last stride of the destination; `taken`:
  the region that it copies;
* `blit_perm`: **`_blit` makes the assignments of the region that it copies**, in some order.
-/

namespace Mnn.CPURaster

open Blit (memcpy)

/-- The bytes of an element. -/
inductive Bytes
  | one | two | four
  deriving DecidableEq

variable {τ : Type*} (region : Region τ)

/-- One dimension in `OpCommonUtils::isTranspose`. -/
def isTransposeStep (p : Option (Fin 3) × Option (Fin 3)) (i : Fin 3) :
    Option (Option (Fin 3) × Option (Fin 3)) :=
  if region.size i = 1 then some p
  else if region.src.stride i = 1 ∧ p.1.isSome then none
  else if region.dst.stride i = 1 ∧ p.2.isSome then none
  else some (if region.src.stride i = 1 then some i else p.1,
    if region.dst.stride i = 1 then some i else p.2)

/-- `OpCommonUtils::isTranspose`, with `srcOne` and `dstOne`. -/
def isTranspose : Option (Fin 3 × Fin 3) :=
  match [0, 1, 2].foldlM (isTransposeStep region) (none, none) with
  | some (some srcOne, some dstOne) => if srcOne ≠ dstOne then some (srcOne, dstOne) else none
  | _ => none

/-- The variables of `_transpose`: `dims`, and `keepDim` where it is set. -/
structure Dims where
  w : ℤ := 0
  h : ℤ := 0
  srcStride : ℤ := 0
  dstStride : ℤ := 0
  keepDim : Option (Fin 3) := none

/-- One dimension in `_transpose`. -/
def dimsStep (dims : Dims) (i : Fin 3) : Dims :=
  if region.src.stride i = 1 ∧ region.size i ≠ 1 then
    { dims with h := region.size i, dstStride := region.dst.stride i }
  else if region.dst.stride i = 1 ∧ region.size i ≠ 1 then
    { dims with w := region.size i, srcStride := region.src.stride i }
  else { dims with keepDim := some i }

/-- `MNNTranspose32Bit` and `MNNTranspose16Bit`. -/
def transposeBit (dst src : ℤ) (dims : Dims) : List (ℤ × ℤ) :=
  (List.range dims.h.toNat).flatMap fun i : ℕ => (List.range dims.w.toNat).map fun j : ℕ =>
    (src + i + j * dims.srcStride, dst + i * dims.dstStride + j)

/-- `_transpose`. -/
def transpose : List (ℤ × ℤ) :=
  let dims := [0, 1, 2].foldl (dimsStep region) {}
  match dims.keepDim with
  | none => []
  | some keepDim =>
    (List.range (region.size keepDim).toNat).flatMap fun z : ℕ =>
      transposeBit (region.dst.offset + region.dst.stride keepDim * z)
        (region.src.offset + region.src.stride keepDim * z) dims

/-- `MNN4BitcopyFast`, `MNN2BitcopyFast` and `MNN1BitcopyFast`. -/
def bitcopyFast (dst src size stride _ds : ℤ) : List (ℤ × ℤ) :=
  if stride = 1 then memcpy dst src size
  else (List.range size.toNat).map fun i : ℕ => (src, dst + i)

/-- `MNN4BitcopyWithStride`, `MNN2BitcopyWithStride` and `MNN1BitcopyWithStride`. -/
def bitcopyWithStride (dst src size stride ds : ℤ) : List (ℤ × ℤ) :=
  (List.range size.toNat).map fun i : ℕ => (src + i * stride, dst + i * ds)

/-- `_selectUnitProc`. -/
def selectUnitProc (bytes : Bytes) (stride ds : ℤ) : ℤ → ℤ → ℤ → ℤ → ℤ → List (ℤ × ℤ) :=
  match bytes with
  | .four | .two | .one =>
    if ds = 1 ∧ (stride = 1 ∨ stride = 0) then bitcopyFast else bitcopyWithStride

/-- The test of `_blit` before it copies blocks. -/
def Blocks (slice : Region τ) : Prop :=
  slice.src.stride 1 = slice.size 2 ∧ slice.dst.stride 1 = slice.size 2 ∧ slice.src.stride 2 = 1

instance (slice : Region τ) : Decidable (Blocks slice) := inferInstanceAs (Decidable (_ ∧ _))

/-- `_blit` without reduction. -/
def blit (bytes : Bytes) (slice : Region τ) : List (ℤ × ℤ) :=
  let srcZ (z : ℕ) := slice.src.offset + z * slice.src.stride 0
  let dstZ (z : ℕ) := slice.dst.offset + z * slice.dst.stride 0
  let srcY (z y : ℕ) := srcZ z + y * slice.src.stride 1
  let dstY (z y : ℕ) := dstZ z + y * slice.dst.stride 1
  if Blocks slice then
    (List.range (slice.size 0).toNat).flatMap fun z =>
      memcpy (dstZ z) (srcZ z) (slice.size 1 * slice.src.stride 1)
  else if (isTranspose slice).isSome ∧ (bytes = .four ∨ bytes = .two) then transpose slice
  else if 1 = slice.src.stride 2 ∧ 1 = slice.dst.stride 2 then
    (List.range (slice.size 0).toNat).flatMap fun z =>
      (List.range (slice.size 1).toNat).flatMap fun y => memcpy (dstY z y) (srcY z y) (slice.size 2)
  else
    (List.range (slice.size 0).toNat).flatMap fun z =>
      (List.range (slice.size 1).toNat).flatMap fun y =>
        selectUnitProc bytes (slice.src.stride 2) (slice.dst.stride 2) (dstY z y) (srcY z y)
          (slice.size 2) (slice.src.stride 2) (slice.dst.stride 2)

/-! ### The loops over a region -/

/-- The assignments of the loops over `z`, `y` and `x`. -/
def plain : List (ℤ × ℤ) :=
  (boxIndices region.size).map fun i => (region.src.address i, region.dst.address i)

theorem plain_eq : plain region = (List.range (region.size 0).toNat).flatMap fun z : ℕ =>
    (List.range (region.size 1).toNat).flatMap fun y : ℕ =>
      (List.range (region.size 2).toNat).map fun x : ℕ =>
        (region.src.address ![(z : ℤ), (y : ℤ), (x : ℤ)],
          region.dst.address ![(z : ℤ), (y : ℤ), (x : ℤ)]) := by
  simp only [plain, boxIndices, List.map_flatMap, List.map_map]
  rfl

theorem address_vec (v : View) (z y x : ℤ) :
    v.address ![z, y, x] = v.offset + z * v.stride 0 + y * v.stride 1 + x * v.stride 2 := rfl

/-- Three loops whose bodies differ in every round. -/
theorem nodup_loops {α : Type*} {f : ℕ → ℕ → ℕ → α} (a b c : ℕ)
    (hf : ∀ z y x z' y' x', f z y x = f z' y' x' → z = z' ∧ y = y' ∧ x = x') :
    ((List.range a).flatMap fun z => (List.range b).flatMap fun y =>
      (List.range c).map fun x => f z y x).Nodup := by
  have hmap : ((List.range a).flatMap fun z => (List.range b).flatMap fun y =>
      (List.range c).map fun x => f z y x) =
      ((List.range a).product ((List.range b).product (List.range c))).map
        fun p => f p.1 p.2.1 p.2.2 := by
    simp [List.product, List.map_flatMap, Function.comp_def]
  rw [hmap]
  refine List.Nodup.map ?_ (List.nodup_range.product (List.nodup_range.product List.nodup_range))
  rintro ⟨z, y, x⟩ ⟨z', y', x'⟩ heq
  obtain ⟨rfl, rfl, rfl⟩ := hf _ _ _ _ _ _ heq
  rfl

theorem nodup_boxIndices (size : Fin 3 → ℤ) : (boxIndices size).Nodup := by
  refine nodup_loops _ _ _ fun z y x z' y' x' heq => ?_
  have h₀ := congrFun heq 0
  have h₁ := congrFun heq 1
  have h₂ := congrFun heq 2
  simp at h₀ h₁ h₂
  exact ⟨h₀, h₁, h₂⟩

/-! ### The transposition -/

/-- The dimensions that a transposition exchanges are the only ones with a stride of one. -/
structure IsTransposed (region : Region τ) (srcOne dstOne : Fin 3) : Prop where
  ne : srcOne ≠ dstOne
  src : region.size srcOne ≠ 1 ∧ region.src.stride srcOne = 1
  dst : region.size dstOne ≠ 1 ∧ region.dst.stride dstOne = 1
  src_unique : ∀ i, region.size i ≠ 1 → region.src.stride i = 1 → i = srcOne
  dst_unique : ∀ i, region.size i ≠ 1 → region.dst.stride i = 1 → i = dstOne

/-- `q` is the only dimension with a stride of one among those that were looked at. -/
def Found (size stride : Fin 3 → ℤ) (seen : List (Fin 3)) (q : Option (Fin 3)) : Prop :=
  ∀ i, q = some i ↔ i ∈ seen ∧ size i ≠ 1 ∧ stride i = 1

theorem Found.skip {size stride : Fin 3 → ℤ} {seen : List (Fin 3)} {q : Option (Fin 3)} {i : Fin 3}
    (h : Found size stride seen q) (hi : size i = 1) : Found size stride (seen ++ [i]) q := by
  intro j
  rw [h j, List.mem_append, List.mem_singleton]
  refine ⟨fun hj => ⟨.inl hj.1, hj.2⟩, fun hj => ⟨hj.1.resolve_right ?_, hj.2⟩⟩
  rintro rfl
  exact hj.2.1 hi

theorem Found.look {size stride : Fin 3 → ℤ} {seen : List (Fin 3)} {q : Option (Fin 3)} {i : Fin 3}
    (h : Found size stride seen q) (hi : size i ≠ 1) (hq : ¬ (stride i = 1 ∧ q.isSome)) :
    Found size stride (seen ++ [i]) (if stride i = 1 then some i else q) := by
  intro j
  rw [List.mem_append, List.mem_singleton]
  split_ifs with hone
  · have hnone : ∀ k, q ≠ some k := fun k hk => hq ⟨hone, by rw [hk]; rfl⟩
    rw [Option.some.injEq]
    constructor
    · rintro rfl
      exact ⟨.inr rfl, hi, hone⟩
    · rintro ⟨hmem, hj⟩
      exact (hmem.resolve_left fun hseen => hnone j ((h j).2 ⟨hseen, hj⟩)).symm
  · rw [h j]
    refine ⟨fun hj => ⟨.inl hj.1, hj.2⟩, fun hj => ⟨hj.1.resolve_right ?_, hj.2⟩⟩
    rintro rfl
    exact hone hj.2.2

variable {region}

theorem found_step {seen : List (Fin 3)} {p p' : Option (Fin 3) × Option (Fin 3)} {i : Fin 3}
    (hsrc : Found region.size region.src.stride seen p.1)
    (hdst : Found region.size region.dst.stride seen p.2)
    (hstep : isTransposeStep region p i = some p') :
    Found region.size region.src.stride (seen ++ [i]) p'.1 ∧
      Found region.size region.dst.stride (seen ++ [i]) p'.2 := by
  unfold isTransposeStep at hstep
  by_cases hsize : region.size i = 1
  · rw [if_pos hsize] at hstep
    obtain rfl := Option.some.inj hstep
    exact ⟨hsrc.skip hsize, hdst.skip hsize⟩
  · rw [if_neg hsize] at hstep
    by_cases hs : region.src.stride i = 1 ∧ p.1.isSome
    · rw [if_pos hs] at hstep
      cases hstep
    · rw [if_neg hs] at hstep
      by_cases hd : region.dst.stride i = 1 ∧ p.2.isSome
      · rw [if_pos hd] at hstep
        cases hstep
      · rw [if_neg hd] at hstep
        obtain rfl := Option.some.inj hstep
        exact ⟨hsrc.look hsize hs, hdst.look hsize hd⟩

theorem isTransposed_of_isTranspose {srcOne dstOne : Fin 3}
    (h : isTranspose region = some (srcOne, dstOne)) : IsTransposed region srcOne dstOne := by
  unfold isTranspose at h
  have hnone : ∀ stride, Found region.size stride [] none := by simp [Found]
  cases hp : [0, 1, 2].foldlM (isTransposeStep region) (none, none) with
  | none =>
    rw [hp] at h
    cases h
  | some p =>
    rw [hp] at h
    simp only [List.foldlM_cons, List.foldlM_nil] at hp
    obtain ⟨p₀, h₀, hp⟩ := Option.bind_eq_some_iff.1 hp
    obtain ⟨p₁, h₁, hp⟩ := Option.bind_eq_some_iff.1 hp
    obtain ⟨p₂, h₂, hp'⟩ := Option.bind_eq_some_iff.1 hp
    obtain rfl := Option.some.inj hp'
    have hf₀ := found_step (hnone _) (hnone _) h₀
    have hf₁ := found_step hf₀.1 hf₀.2 h₁
    obtain ⟨hsrc, hdst⟩ := found_step hf₁.1 hf₁.2 h₂
    have hall : ∀ i : Fin 3, i ∈ [] ++ [0] ++ [1] ++ [2] := by decide
    obtain ⟨q, q'⟩ := p₂
    cases q with
    | none => cases h
    | some s =>
      cases q' with
      | none => cases h
      | some d =>
        by_cases hne : s ≠ d
        · simp only [if_pos hne, Option.some.injEq, Prod.mk.injEq] at h
          obtain ⟨rfl, rfl⟩ := h
          exact ⟨hne, ((hsrc s).1 rfl).2, ((hdst d).1 rfl).2,
            fun i hi hone => (Option.some.inj ((hsrc i).2 ⟨hall i, hi, hone⟩)).symm,
            fun i hi hone => (Option.some.inj ((hdst i).2 ⟨hall i, hi, hone⟩)).symm⟩
        · simp only [if_neg hne, reduceCtorEq] at h

theorem exists_third (s d : Fin 3) : ∃ k, k ≠ s ∧ k ≠ d := by decide +revert

theorem eq_third {k s d : Fin 3} (hs : k ≠ s) (hd : k ≠ d) (hne : s ≠ d) {a : Fin 3} (hk : a ≠ k)
    (ha : a ≠ s) : a = d := by
  decide +revert

theorem orders {k s d : Fin 3} (hs : k ≠ s) (hd : k ≠ d) (hne : s ≠ d) :
    (k = 0 ∧ s = 1 ∧ d = 2) ∨ (k = 0 ∧ s = 2 ∧ d = 1) ∨ (k = 1 ∧ s = 0 ∧ d = 2) ∨
      (k = 1 ∧ s = 2 ∧ d = 0) ∨ (k = 2 ∧ s = 0 ∧ d = 1) ∨ (k = 2 ∧ s = 1 ∧ d = 0) := by
  decide +revert

namespace IsTransposed

variable {srcOne dstOne keepDim : Fin 3}

theorem dimsStep_src (h : IsTransposed region srcOne dstOne) (dims : Dims) :
    dimsStep region dims srcOne =
      { dims with h := region.size srcOne, dstStride := region.dst.stride srcOne } :=
  if_pos ⟨h.src.2, h.src.1⟩

theorem dimsStep_dst (h : IsTransposed region srcOne dstOne) (dims : Dims) :
    dimsStep region dims dstOne =
      { dims with w := region.size dstOne, srcStride := region.src.stride dstOne } := by
  have hnot : ¬ (region.src.stride dstOne = 1 ∧ region.size dstOne ≠ 1) := fun hone =>
    h.ne (h.src_unique dstOne hone.2 hone.1).symm
  rw [dimsStep, if_neg hnot, if_pos ⟨h.dst.2, h.dst.1⟩]

theorem dimsStep_keep (h : IsTransposed region srcOne dstOne) (hs : keepDim ≠ srcOne)
    (hd : keepDim ≠ dstOne) (dims : Dims) :
    dimsStep region dims keepDim = { dims with keepDim := some keepDim } := by
  have hsrc : ¬ (region.src.stride keepDim = 1 ∧ region.size keepDim ≠ 1) := fun hone =>
    hs (h.src_unique keepDim hone.2 hone.1)
  have hdst : ¬ (region.dst.stride keepDim = 1 ∧ region.size keepDim ≠ 1) := fun hone =>
    hd (h.dst_unique keepDim hone.2 hone.1)
  rw [dimsStep, if_neg hsrc, if_neg hdst]

/-- The variables of `_transpose` behind its loop. -/
theorem dims_eq (h : IsTransposed region srcOne dstOne) :
    ∃ keepDim, keepDim ≠ srcOne ∧ keepDim ≠ dstOne ∧ [0, 1, 2].foldl (dimsStep region) {} =
      { w := region.size dstOne
        h := region.size srcOne
        srcStride := region.src.stride dstOne
        dstStride := region.dst.stride srcOne
        keepDim := some keepDim } := by
  obtain ⟨keepDim, hs, hd⟩ := exists_third srcOne dstOne
  refine ⟨keepDim, hs, hd, ?_⟩
  have hsrc := h.dimsStep_src
  have hdst := h.dimsStep_dst
  have hkeep := h.dimsStep_keep hs hd
  rcases orders hs hd h.ne with ⟨rfl, rfl, rfl⟩ | ⟨rfl, rfl, rfl⟩ | ⟨rfl, rfl, rfl⟩ |
    ⟨rfl, rfl, rfl⟩ | ⟨rfl, rfl, rfl⟩ | ⟨rfl, rfl, rfl⟩ <;>
  simp only [List.foldl_cons, List.foldl_nil, hsrc, hdst, hkeep]

end IsTransposed

/-- The index with the entries `z`, `i` and `j` in three dimensions. -/
def entries (keepDim srcOne : Fin 3) (z i j : ℤ) : Fin 3 → ℤ := fun a =>
  if a = keepDim then z else if a = srcOne then i else j

/-- The loops over the dimensions in another order go through the same box. -/
theorem perm_boxIndices {srcOne dstOne keepDim : Fin 3} (hs : keepDim ≠ srcOne)
    (hd : keepDim ≠ dstOne) (hne : srcOne ≠ dstOne) (size : Fin 3 → ℤ) :
    ((List.range (size keepDim).toNat).flatMap fun z : ℕ =>
      (List.range (size srcOne).toNat).flatMap fun i : ℕ =>
        (List.range (size dstOne).toNat).map fun j : ℕ => entries keepDim srcOne z i j).Perm
      (boxIndices size) := by
  refine (List.perm_ext_iff_of_nodup (nodup_loops _ _ _ ?_) (nodup_boxIndices size)).2 fun p => ?_
  · intro z i j z' i' j' heq
    have hz := congrFun heq keepDim
    have hi := congrFun heq srcOne
    have hj := congrFun heq dstOne
    simp [entries, hs.symm, hd.symm, hne.symm] at hz hi hj
    exact ⟨hz, hi, hj⟩
  · simp only [List.mem_flatMap, List.mem_map, List.mem_range, mem_boxIndices]
    constructor
    · rintro ⟨z, hz, i, hi, j, hj, rfl⟩ a
      unfold entries
      split_ifs with hk ha
      · subst hk
        omega
      · subst ha
        omega
      · obtain rfl := eq_third hs hd hne hk ha
        omega
    · intro h
      have hz := h keepDim
      have hi := h srcOne
      have hj := h dstOne
      refine ⟨(p keepDim).toNat, by omega, (p srcOne).toNat, by omega, (p dstOne).toNat, by omega,
        ?_⟩
      funext a
      unfold entries
      split_ifs with hk ha
      · rw [hk]
        omega
      · rw [ha]
        omega
      · rw [eq_third hs hd hne hk ha]
        omega

theorem address_entries {srcOne dstOne keepDim : Fin 3} (hs : keepDim ≠ srcOne)
    (hd : keepDim ≠ dstOne) (hne : srcOne ≠ dstOne) (v : View) (z i j : ℤ) :
    v.address (entries keepDim srcOne z i j) =
      v.offset + z * v.stride keepDim + i * v.stride srcOne + j * v.stride dstOne := by
  rcases orders hs hd hne with ⟨rfl, rfl, rfl⟩ | ⟨rfl, rfl, rfl⟩ | ⟨rfl, rfl, rfl⟩ |
    ⟨rfl, rfl, rfl⟩ | ⟨rfl, rfl, rfl⟩ | ⟨rfl, rfl, rfl⟩ <;>
  simp [entries, View.address] <;> ring

theorem transpose_perm {srcOne dstOne : Fin 3} (h : IsTransposed region srcOne dstOne) :
    (transpose region).Perm (plain region) := by
  obtain ⟨keepDim, hs, hd, hdims⟩ := h.dims_eq
  have hperm := (perm_boxIndices hs hd h.ne region.size).map
    fun i => (region.src.address i, region.dst.address i)
  refine (List.Perm.of_eq ?_).trans hperm
  unfold transpose
  rw [hdims]
  simp only [transposeBit, List.map_flatMap, List.map_map]
  refine List.flatMap_congr fun z _ => List.flatMap_congr fun i _ =>
    List.map_congr_left fun j _ => ?_
  rw [Function.comp_apply, address_entries hs hd h.ne, address_entries hs hd h.ne, h.src.2, h.dst.2]
  refine Prod.ext ?_ ?_
  · simp only
    ring
  · simp only
    ring

/-! ### What `_blit` copies -/

/-- Blocks are copied as if the elements of a row of the destination were next to each other. -/
def taken (slice : Region τ) : Region τ :=
  if Blocks slice then
    { slice with dst := { slice.dst with stride := Function.update slice.dst.stride 2 1 } }
  else slice

theorem memcpy_eq (dst src n : ℤ) :
    memcpy dst src n = (List.range n.toNat).map fun x : ℕ => (src + x, dst + x) := rfl

/-- The rows of a block follow each other. -/
theorem blocks_eq {slice : Region τ} (hsize : ∀ k, 1 ≤ slice.size k) (h : Blocks slice) :
    ((List.range (slice.size 0).toNat).flatMap fun z : ℕ =>
      memcpy (slice.dst.offset + z * slice.dst.stride 0) (slice.src.offset + z * slice.src.stride 0)
        (slice.size 1 * slice.src.stride 1)) = plain (taken slice) := by
  obtain ⟨hs1, hd1, hs2⟩ := h
  have hcount : (slice.size 1 * slice.src.stride 1).toNat =
      (slice.size 1).toNat * (slice.size 2).toNat := by
    rw [hs1, Int.toNat_mul (by linarith [hsize 1]) (by linarith [hsize 2])]
  have hwidth : (((slice.size 2).toNat : ℕ) : ℤ) = slice.size 2 :=
    Int.toNat_of_nonneg (by linarith [hsize 2])
  rw [taken, if_pos ⟨hs1, hd1, hs2⟩, plain_eq]
  refine List.flatMap_congr fun z _ => ?_
  rw [memcpy_eq, hcount, ← Lib.flatMap_range_map]
  refine List.flatMap_congr fun y _ => List.map_congr_left fun x _ => ?_
  rw [address_vec, address_vec]
  refine Prod.ext ?_ ?_
  · simp [hwidth, hs1, hs2]
    ring
  · simp [hwidth, hd1]
    ring

/-- A unit procedure copies the elements of a row. -/
theorem selectUnitProc_eq (bytes : Bytes) (dst src size stride ds : ℤ) :
    selectUnitProc bytes stride ds dst src size stride ds =
      (List.range size.toNat).map fun x : ℕ => (src + x * stride, dst + x * ds) := by
  have hproc : (if ds = 1 ∧ (stride = 1 ∨ stride = 0) then bitcopyFast else bitcopyWithStride)
      dst src size stride ds =
        (List.range size.toNat).map fun x : ℕ => (src + x * stride, dst + x * ds) := by
    split_ifs with hfast
    · obtain ⟨rfl, rfl | rfl⟩ := hfast
      · simp [bitcopyFast, memcpy_eq]
      · simp [bitcopyFast]
    · rfl
  cases bytes <;> exact hproc

/-- **`_blit` makes the assignments of the region that it copies**, in some order. -/
theorem blit_perm (bytes : Bytes) {slice : Region τ} (hsize : ∀ k, 1 ≤ slice.size k) :
    (blit bytes slice).Perm (plain (taken slice)) := by
  unfold blit
  simp only
  split_ifs with hblocks htranspose hrows
  · exact .of_eq (blocks_eq hsize hblocks)
  · rw [taken, if_neg hblocks]
    obtain ⟨p, hp⟩ := Option.isSome_iff_exists.1 htranspose.1
    exact transpose_perm (isTransposed_of_isTranspose hp)
  · rw [taken, if_neg hblocks, plain_eq]
    refine .of_eq (List.flatMap_congr fun z _ => List.flatMap_congr fun y _ => ?_)
    simp only [memcpy_eq, address_vec, ← hrows.1, ← hrows.2, mul_one]
  · rw [taken, if_neg hblocks, plain_eq]
    refine .of_eq (List.flatMap_congr fun z _ => List.flatMap_congr fun y _ => ?_)
    rw [selectUnitProc_eq]
    rfl

end Mnn.CPURaster
