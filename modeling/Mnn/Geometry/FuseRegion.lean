import Mnn.Lib.StridedBox
import Mnn.Geometry.Region

/-!
# Fusing two regions

`TensorUtils::FuseRegionStatus` (`source/core/TensorUtils.cpp`): `match` decides whether the region
`srcReg` (origin to middle tensor) and the region `dstReg` (middle to output tensor) can be fused,
and `apply` rewrites `dstReg`.

* `offsetCompute`, `expandStrideSize`, `clipDst`: the helpers, on lists in the place of arrays with
  their counts;
* `matchRegion`: `match`, with the members that `apply` reads;
* `applyMatch`: `apply`.

Integers are unbounded, with the division of C++.  A member that is read before any assignment gives
the result `undefined`.
-/

namespace Mnn

open Lib (Axis)

namespace FuseRegion

variable {τ : Type*}

/-- `isCopyRegion`. -/
def isCopyRegion (region : Region τ) : Bool :=
  ([0, 1, 2] : List (Fin 3)).all fun i =>
    region.src.stride i = region.dst.stride i ∨ region.size i ≤ 1

/-- `offsetCompute`, from the view `src` to the view `dst` of a region. -/
def offsetCompute (src dst : View) (size : Fin 3 → ℤ) (srcOffset dstOffset : ℤ) : ℤ :=
  (([0, 1, 2] : List (Fin 3)).foldl (fun (res, srcOffset, dstOffset) i =>
    if size i > 1 then
      (res + (srcOffset.tdiv (src.stride i) - dstOffset.tdiv (src.stride i)) * dst.stride i,
        srcOffset.tmod (src.stride i), dstOffset.tmod (src.stride i))
    else (res, srcOffset, dstOffset)) (0, srcOffset, dstOffset)).1

/-- `expandStrideSize`, with the loop before index `i`: the last axis that `expandValue` divides is
split. -/
def expandLoop (expandValue : ℤ) (axes : List Axis) : ℕ → Option (List Axis)
  | 0 => none
  | i + 1 =>
    match axes[i]? with
    | none => none
    | some ax =>
      let splitSize := expandValue.tdiv ax.near
      if expandValue.tmod ax.near = 0 ∧ ax.extent.tmod splitSize = 0 then
        if axes.length < 3 then
          some (axes.take i ++ ⟨expandValue, splitSize * ax.far, ax.extent.tdiv splitSize⟩ ::
            ⟨ax.near, ax.far, splitSize⟩ :: axes.drop (i + 1))
        else none
      else expandLoop expandValue axes i

def expandStrideSize (axes : List Axis) (expandValue : ℤ) : Option (List Axis) :=
  expandLoop expandValue axes axes.length

/-! ### Clipping -/

/-- `validIndex`: the indices by decreasing stride. -/
def validIndex : List ℤ → List ℕ
  | [s₀, s₁] => if s₀ < s₁ then [1, 0] else [0, 1]
  | [s₀, s₁, s₂] =>
    let maxi := if s₁ > s₀ then (if s₂ > s₁ then 2 else 1) else (if s₂ > s₀ then 2 else 0)
    let mini := if s₁ < s₀ then (if s₂ < s₁ then 2 else 1) else (if s₂ < s₀ then 2 else 0)
    [maxi, (([0, 1, 2] : List ℕ).find? fun i => i ≠ maxi ∧ i ≠ mini).getD 1, mini]
  | stride => List.range stride.length

/-- The first part of `_ClipDst`: the offsets `o`, unless a remainder is left. -/
def clipOffset (stride : List ℤ) (srcOffset dstOffset : ℤ) : Option (List ℤ) :=
  if stride = [] then
    if dstOffset - srcOffset = 0 then some [] else none
  else
    let (o, srcOffset, dstOffset) := (validIndex stride).foldl (fun (o, srcOffset, dstOffset) i =>
      let s := stride.getD i 0
      (o.set i (dstOffset.tdiv s - srcOffset.tdiv s), srcOffset.tmod s, dstOffset.tmod s))
      (stride.map fun _ => (0 : ℤ), srcOffset, dstOffset)
    if srcOffset ≠ 0 ∨ dstOffset ≠ 0 then none else some o

def clipMin (o : List ℤ) : List ℤ := o.map fun oi => max 0 (-oi)

def clipMax (srcSize dstSize o : List ℤ) : List ℤ :=
  List.zipWith (fun s i => min s i) (List.zipWith (· - ·) srcSize o) dstSize

/-- `_ClipDst` without `checkFull`: `dstMin` and `dstMax`. -/
def clipWindow (stride : List ℤ) (srcOffset dstOffset : ℤ) (srcSize dstSize : List ℤ) :
    Option (List ℤ × List ℤ) :=
  (clipOffset stride srcOffset dstOffset).map fun o => (clipMin o, clipMax srcSize dstSize o)

/-- The check of `_ClipDst` for a second part of `dst` that meets `src`. -/
def needsSlice (stride : List ℤ) (srcOffset dstOffset : ℤ) (srcSize dstSize dstMax : List ℤ) :
    Bool :=
  let srcMax := (List.zipWith (· * ·) srcSize stride).sum
  let srcMin := (List.range stride.length).foldl (fun srcMin i =>
    if dstMax.getD i 0 < srcSize.getD i 0 then
      if srcMin = -1 then stride.getD i 0 else min (stride.getD i 0) srcMin
    else srcMin) (-1)
  if srcMin < 0 then false
  else (List.range stride.length).any fun i =>
    dstMax.getD i 0 ≠ dstSize.getD i 0 &&
    let bias := dstOffset - srcOffset + dstMax.getD i 0 * stride.getD i 0
    (bias < srcMax && bias ≥ srcMin) && (List.range stride.length).any fun k =>
      dstMax.getD k 0 < srcSize.getD k 0 &&
      match clipWindow stride (srcOffset + dstMax.getD k 0 * stride.getD k 0)
        (dstOffset + dstMax.getD i 0 * stride.getD i 0)
        (srcSize.set k (srcSize.getD k 0 - dstMax.getD k 0))
        (dstSize.set i (dstSize.getD i 0 - dstMax.getD i 0)) with
      | none => false
      | some (dstMinNew, dstMaxNew) =>
        (List.range stride.length).all fun j => dstMaxNew.getD j 0 > dstMinNew.getD j 0

/-- `_ClipDst`. -/
def clipDst (stride : List ℤ) (srcOffset dstOffset : ℤ) (srcSize dstSize : List ℤ) :
    Option (List ℤ × List ℤ) :=
  (clipWindow stride srcOffset dstOffset srcSize dstSize).bind fun window =>
    if needsSlice stride srcOffset dstOffset srcSize dstSize window.2 then none else some window

/-! ### Matching -/

/-- The axes with an extent above one. -/
def axesOf (near far : View) (size : Fin 3 → ℤ) : List Axis :=
  (([0, 1, 2] : List (Fin 3)).map fun i =>
    ⟨near.stride i, far.stride i, size i⟩).filter fun ax => ax.extent > 1

/-- `srcStride` and `dstStride`, filled up with `-1`. -/
def padStride (axes : List Axis) : List ℤ :=
  axes.map Axis.near ++ List.replicate (3 - axes.length) (-1)

/-- `MNN_3_INT_DIFF` over `x`: what is not in `y`, unless there is more of it. -/
def strideExtra (x y : List ℤ) : Option ℤ :=
  x.foldlM (fun r v => if v ∈ y then some r else if r > 0 then none else some v) (-1)

/-- The loop that reorders `srcSrc` and `srcSize` to `newSrc` and `newSrcSize`. -/
def reorder (srcAxes dstAxes : List Axis) : Option (List (Option Axis)) :=
  srcAxes.foldlM (fun new ax => (dstAxes.findIdx? fun d => d.near = ax.near).map fun index =>
    new.set index (some ax)) (dstAxes.map fun _ => none)

/-- Extents above one need positive strides. -/
def positiveStrides (r : Region τ) : Bool :=
  ([0, 1, 2] : List (Fin 3)).all fun i =>
    ¬ (r.size i > 1 ∧ (r.src.stride i ≤ 0 ∨ r.dst.stride i ≤ 0))

/-- `dstTotalSize` and `srcTotalSize`. -/
def totalSize (r : Region τ) : ℤ :=
  ([0, 1, 2] : List (Fin 3)).foldl
    (fun total i => if r.size i > 1 then total * r.size i else total) 1

/-- The last address of a view by its strides. -/
def lastAddress (v : View) (size : Fin 3 → ℤ) : ℤ :=
  ([0, 1, 2] : List (Fin 3)).foldl (fun last i => last + v.stride i * (size i - 1)) v.offset

/-- `copyValid`. -/
def copyValid (srcReg dstReg : Region τ) : Bool :=
  ¬ (srcReg.dst.offset > dstReg.src.offset ∨ srcReg.dst.stride 1 > srcReg.size 2 ∨
      srcReg.dst.stride 2 > srcReg.size 1 * srcReg.size 2) ∧
    ¬ (totalSize dstReg > totalSize srcReg) ∧
    ¬ (srcReg.dst.offset > dstReg.src.offset ∨
      lastAddress srcReg.dst srcReg.size < lastAddress dstReg.src dstReg.size)

/-- The members that `apply` reads under `FUSE_REGION_COMPUTE`. -/
structure RegionCompute where
  sizeNum : ℕ
  dstSize : List ℤ
  dstDst : List ℤ
  newSrc : List ℤ
  dstMin : List ℤ
  dstMax : List ℤ
  newSrcOffset : ℤ
  newDstOffset : ℤ
  deriving DecidableEq

/-- What `match` returns and leaves. -/
inductive MatchResult
  | rejected
  | srcCopy
  | regionCompute (status : RegionCompute)
  | undefined
  deriving DecidableEq

/-- `expandStrideSize`, called for a positive stride only. -/
def expandExtra (axes : List Axis) (extra : ℤ) : Option (List Axis) :=
  if extra > 0 then expandStrideSize axes extra else some axes

/-- The axes of the two regions after `expandStrideSize`. -/
def expandAxes (srcReg dstReg : Region τ) : Option (List Axis × List Axis) := do
  let srcAxes := axesOf srcReg.dst srcReg.src srcReg.size
  let dstAxes := axesOf dstReg.src dstReg.dst dstReg.size
  let srcExtra ← strideExtra (padStride srcAxes) (padStride dstAxes)
  let dstExtra ← strideExtra (padStride dstAxes) (padStride srcAxes)
  let srcAxes ← expandExtra srcAxes dstExtra
  let dstAxes ← expandExtra dstAxes srcExtra
  some (srcAxes, dstAxes)

/-- The last loop of `match`: the region is empty, or its offsets move to the window. -/
def placeWindow (status : RegionCompute) : RegionCompute :=
  if (List.zipWith (fun min max => decide (max ≤ min)) status.dstMin status.dstMax).any id then
    { status with dstSize := status.dstSize.map fun _ => 0 }
  else
    { status with
      newDstOffset := status.newDstOffset + (List.zipWith
        (fun min s => if min > 0 then min * s else 0) status.dstMin status.dstDst).sum
      newSrcOffset := status.newSrcOffset + (List.zipWith
        (fun min s => if min > 0 then min * s else 0) status.dstMin status.newSrc).sum }

/-- `FuseRegionStatus::match`. -/
def matchRegion (srcReg dstReg : Region τ) : MatchResult :=
  if ¬ (positiveStrides srcReg ∧ positiveStrides dstReg) then .rejected
  else if isCopyRegion srcReg ∧ copyValid srcReg dstReg then .srcCopy
  else
    match expandAxes srcReg dstReg with
    | none => .rejected
    | some (srcAxes, dstAxes) =>
      match reorder srcAxes dstAxes with
      | none => .rejected
      | some new =>
        let stride := dstAxes.map Axis.near
        let dstSize := dstAxes.map Axis.extent
        match clipOffset stride srcReg.dst.offset dstReg.src.offset with
        | none => .rejected
        | some _ =>
          match new.mapM id with
          | none => .undefined
          | some new =>
            match clipDst stride srcReg.dst.offset dstReg.src.offset (new.map Axis.extent)
              dstSize with
            | none => .rejected
            | some (dstMin, dstMax) =>
              .regionCompute <| placeWindow
                { sizeNum := (axesOf dstReg.src dstReg.dst dstReg.size).length
                  dstSize, dstMin, dstMax
                  dstDst := dstAxes.map Axis.far
                  newSrc := new.map Axis.far
                  newSrcOffset := offsetCompute srcReg.dst srcReg.src srcReg.size dstReg.src.offset
                    srcReg.dst.offset + srcReg.src.offset
                  newDstOffset := dstReg.dst.offset }

/-! ### Rewriting -/

/-- `stride[i] = v`. -/
def setAt (f : Fin 3 → ℤ) (i : ℕ) (v : ℤ) : Fin 3 → ℤ := fun k => if k.val = i then v else f k

/-- The loop of `apply` over the extents. -/
def sizeLoop (offset dstNum : ℕ) (dstMin dstMax : List ℤ) : Fin 3 → ℤ :=
  (List.range dstNum).foldl (fun size i =>
    setAt size (i + offset) (dstMax.getD i 0 - dstMin.getD i 0)) fun _ => 1

/-- The loop of `apply` over the strides, which takes them in order for the valid indices. -/
def strideLoop (offset : ℕ) (valid : ℕ → Bool) (newSrc dstDst : List ℤ) :
    (Fin 3 → ℤ) × (Fin 3 → ℤ) × ℕ :=
  (List.range 3).foldl (fun (srcStride, dstStride, idx) i =>
    if valid i then
      (setAt srcStride (i + offset) (newSrc.getD idx 0),
        setAt dstStride (i + offset) (dstDst.getD idx 0), idx + 1)
    else (srcStride, dstStride, idx)) (fun _ => 0, fun _ => 0, 0)

/-- `valid`, with `expandIdx`: the extents above one, and that of one after an expansion. -/
def RegionCompute.valid (st : RegionCompute) (i : ℕ) : Bool :=
  st.dstSize.getD i 0 > 1 ∨
    (st.dstSize.length > st.sizeNum ∧ (st.dstSize.findIdx? fun s => s = 1) = some i)

/-- `FuseRegionStatus::apply` after `match`. -/
def applyMatch (null : τ) (result : MatchResult) (srcReg dstReg : Region τ) : Option (Region τ) :=
  match result with
  | .rejected => some dstReg
  | .undefined => none
  | .srcCopy => some
    { dstReg with
      origin := srcReg.origin
      src := { dstReg.src with
        offset := dstReg.src.offset + (srcReg.src.offset - srcReg.dst.offset) } }
  | .regionCompute st =>
    match st.dstSize with
    | [] => none
    | first :: _ =>
      if first = 0 then some { dstReg with size := setAt dstReg.size 0 0, origin := null }
      else
        let dstNum := st.dstSize.length
        let (srcStride, dstStride, _) := strideLoop (3 - dstNum) st.valid st.newSrc st.dstDst
        some
          { src := { offset := st.newSrcOffset, stride := srcStride }
            dst := { offset := st.newDstOffset, stride := dstStride }
            size := sizeLoop (3 - dstNum) dstNum st.dstMin st.dstMax
            origin := srcReg.origin }

/-- `match` and then `apply`. -/
def fuse (null : τ) (srcReg dstReg : Region τ) : Option (Region τ) :=
  applyMatch null (matchRegion srcReg dstReg) srcReg dstReg

end FuseRegion

end Mnn
