import Mnn.Geometry.Region
import Mnn.Lib.Run

/-!
# Tensor arrays

The shape computers and the geometry of tensor arrays (`source/shape/ShapeTensorArray.cpp`,
`source/geometry/GeometryTensorArray.cpp`).

* `Attr`, `getElemSize`, `flatLength`: `TensorArrayAttr` and what is computed from it;
* `writeAttr`, `insertAttr`, `eraseAttr`, `scatterAttr`, `splitAttr`: the shape computers;
* `regionsWrite`, `regionsErase`, `regionsScatter`, `regionsSplit`: the geometry;
* `read`, `gather`, `concat`: the operators that return tensors;
* `Elem`, `Elems`, `Action`, `describe`: the lists of tensors that the operations describe;
* `Proper`, `Kept`, `machine`: the operations in range, and the condition under which they work.

Dimensions are natural numbers: a negative declared dimension is stored as 0, and those of tensors
are not negative.
-/

namespace Mnn.TensorArray

/-! ### Attributes -/

/-- `TensorArrayAttr`. -/
structure Attr where
  isDynamicSize : Bool
  isIdenticalShape : Bool
  arraySize : ℕ
  elemShape : List (List ℕ)
  deriving DecidableEq, Repr

/-- The offset and the size of an element. -/
def getElemSize (attr : Attr) (index : ℤ) : ℤ × ℤ :=
  let index := if index < 0 then index + attr.elemShape.length else index
  if attr.isIdenticalShape = false ∧ 0 ≤ index ∧ index < attr.elemShape.length then
    ((((attr.elemShape.take index.toNat).map List.prod).sum : ℕ),
      ((attr.elemShape.getD index.toNat []).prod : ℕ))
  else
    match attr.elemShape with
    | shape :: _ => (index * shape.prod, shape.prod)
    | [] => (0, 0)

/-- No element has a shape yet; there are no negative dimensions. -/
def isFirstWrite (attr : Attr) : Bool := attr.elemShape.isEmpty

/-- The length of the flat tensor (`updateTensorArrayDims`). -/
def flatLength (attr : Attr) : ℕ :=
  let totalSize := (attr.elemShape.map List.prod).sum
  if attr.elemShape.length = 1 ∧ 1 < attr.arraySize then totalSize * attr.arraySize
  else if totalSize = 0 then 1
  else totalSize

/-- The shape that `TensorArrayRead` gives its output. -/
def readShape (attr : Attr) (readIndex : ℤ) : List ℕ :=
  if attr.isIdenticalShape = false ∧ 0 ≤ readIndex ∧ readIndex < attr.elemShape.length then
    attr.elemShape.getD readIndex.toNat []
  else attr.elemShape.headD []

/-- `TensorArrayComputer`. -/
def createAttr (dynamic_size identical_element_shapes : Bool) (element_shape : List ℤ) (size : ℕ) :
    Attr where
  isDynamicSize := dynamic_size
  isIdenticalShape := identical_element_shapes
  arraySize := size
  elemShape := if element_shape.isEmpty then [] else [element_shape.map Int.toNat]

/-! ### Shape computers -/

/-- `TensorArrayWriteComputer`. -/
def writeAttr (attr : Attr) (writeIndex : ℕ) (writeShape : List ℕ) : Attr :=
  { attr with
    arraySize := if attr.isDynamicSize = true ∧ attr.arraySize ≤ writeIndex then writeIndex + 1
      else attr.arraySize
    elemShape :=
      if attr.isIdenticalShape then
        match attr.elemShape with
        | [] => [writeShape]
        | _ :: shapes => writeShape :: shapes
      else
        (attr.elemShape ++
          List.replicate (writeIndex + 1 - attr.elemShape.length) writeShape).set writeIndex
            writeShape }

/-- A position that counts from the end when it is negative. -/
def fromEnd (attr : Attr) (position : ℤ) : ℤ :=
  position + if position < 0 then (attr.arraySize : ℤ) else 0

/-- `TensorArrayInsertComputer`. -/
def insertAttr (attr : Attr) (position : ℤ) (insertShape : List ℕ) : Attr :=
  { attr with
    arraySize := attr.arraySize + 1
    elemShape := if attr.isIdenticalShape = true ∧ attr.elemShape ≠ [] then attr.elemShape
      else attr.elemShape.insertIdx (fromEnd attr position).toNat insertShape }

/-- `TensorArrayEraseComputer`. -/
def eraseAttr (attr : Attr) (position : ℤ) : Attr :=
  { attr with
    arraySize := attr.arraySize - 1
    elemShape := if attr.isIdenticalShape then attr.elemShape
      else attr.elemShape.eraseIdx (fromEnd attr position).toNat }

/-- The loop of `TensorArrayScatterComputer`: one index; `oldSize` is the size of the input. -/
def scatterOne (oldSize : ℕ) (writeElemShape : List ℕ) (attr : Attr) (writeIndex : ℕ) : Attr :=
  { attr with
    arraySize := if attr.isDynamicSize = true ∧ oldSize ≤ writeIndex then writeIndex + 1
      else attr.arraySize
    elemShape :=
      match attr.elemShape with
      | [] => [writeElemShape]
      | _ :: shapes => writeElemShape :: shapes }

/-- `TensorArrayScatterComputer`; the first dimension of the value counts the elements. -/
def scatterAttr (attr : Attr) (indices : List ℕ) (valueShape : List ℕ) : Attr :=
  indices.foldl (scatterOne attr.arraySize valueShape.tail) attr

/-- `UP_DIV`. -/
def upDiv (x y : ℕ) : ℕ := (x + y - 1) / y

/-- A negative axis counts from the end. -/
def axisOf (axis : ℤ) (dimensions : ℕ) : ℕ := ((axis + dimensions) % dimensions).toNat

/-- One length stands for all. -/
def scalarSplit (lengths : List ℕ) : Bool := lengths.length = 1

def splitNum (lengths : List ℕ) (totalLen : ℕ) : ℕ :=
  if scalarSplit lengths then upDiv totalLen (lengths.getD 0 0) else lengths.length

/-- `TensorArraySplitComputer`. -/
def splitAttr (attr : Attr) (axis : ℤ) (keepdims : Bool) (lengths : List ℕ) (vShape : List ℕ) :
    Attr :=
  let splitAxis := axisOf axis vShape.length
  let totalLen := vShape.getD splitAxis 0
  if attr.isIdenticalShape then
    { attr with
      arraySize := totalLen
      elemShape := attr.elemShape ++
        [if keepdims then vShape.set splitAxis 1 else vShape.eraseIdx splitAxis] }
  else
    { attr with
      arraySize := splitNum lengths totalLen
      elemShape := attr.elemShape ++ (List.range (splitNum lengths totalLen)).map fun i =>
        if scalarSplit lengths then
          if keepdims = false then vShape.eraseIdx splitAxis
          else vShape.set splitAxis (min (lengths.getD 0 0) (totalLen - i * lengths.getD 0 0))
        else vShape.set splitAxis (lengths.getD i 0) }

/-! ### Geometry -/

/-- Where a region reads from: the array before, the value, or a constant zero. -/
inductive Source
  | flow
  | value
  | zero
  deriving DecidableEq, Repr

/-- A region that copies `size` elements in a row. -/
def blit (origin : Source) (src dst size : ℤ) : Region Source where
  src := { offset := src }
  dst := { offset := dst }
  size := ![size, 1, 1]
  origin := origin

/-- The same from the array before; the first write copies one zero `size` times. -/
def keep (firstWrite : Bool) (src dst size : ℤ) : Region Source where
  src := { offset := if firstWrite then 0 else src, stride := ![if firstWrite then 0 else 1, 1, 1] }
  dst := { offset := dst }
  size := ![size, 1, 1]
  origin := if firstWrite then .zero else .flow

/-- Where an array with these attributes ends: behind its last element. -/
def handleEnd (handle : Attr) (oldSize : ℕ) : ℤ :=
  let last := getElemSize handle ((oldSize : ℤ) - 1)
  last.1 + last.2

/-- The number of regions of a write, at most. -/
def regionSize (outAttr : Attr) (writeIndex : ℤ) : ℕ :=
  (if 0 < writeIndex then 1 else 0) + 1 + if writeIndex < (outAttr.arraySize : ℤ) - 1 then 1 else 0

/-- `GeometryTensorArrayWrite`; `attr` and `outAttr` describe the array before and after, `handle`
the first input. -/
def regionsWrite (mInsertMode : Bool) (attr outAttr handle : Attr) (writeIndex : ℤ) :
    List (Region Source) :=
  let elemSize := getElemSize outAttr writeIndex
  if elemSize.2 = 0 then []
  else
    let write := [blit .value 0 elemSize.1 elemSize.2]
    if regionSize outAttr writeIndex = 1 then write
    else
      let firstWrite := isFirstWrite attr
      let left := if 0 < writeIndex ∧ 0 < elemSize.1 then [keep firstWrite 0 0 elemSize.1] else []
      let rightSize := (attr.arraySize : ℤ) - writeIndex - if mInsertMode then 0 else 1
      let totalSize := handleEnd handle attr.arraySize
      let offset := elemSize.1 + elemSize.2
      let offsetSrc := offset - if mInsertMode then elemSize.2 else 0
      let right :=
        if 0 < rightSize ∧ 0 < totalSize - offsetSrc then
          [keep firstWrite offsetSrc offset (totalSize - offsetSrc)]
        else []
      write ++ left ++ right

/-- `GeometryTensorArrayErase`. -/
def regionsErase (attr : Attr) (position : ℤ) : List (Region Source) :=
  let eraseIndex := fromEnd attr position
  let eleSize := getElemSize attr eraseIndex
  (if 0 < eraseIndex then [blit .flow 0 0 eleSize.1] else []) ++
    if eraseIndex < (attr.arraySize : ℤ) - 1 then
      [blit .flow (eleSize.1 + eleSize.2) eleSize.1 (flatLength attr - (eleSize.1 + eleSize.2))]
    else []

/-- `isWrite`: the places that the loop over the indices marks. -/
def isWrite (oldSize : ℕ) (indices : List ℕ) : List Bool :=
  (List.range indices.length).foldl (fun isWrite i => if i < oldSize then isWrite.set i true
    else isWrite) (List.replicate oldSize false)

/-- `GeometryTensorArrayScatter`. -/
def regionsScatter (attr outAttr : Attr) (indices : List ℕ) : List (Region Source) :=
  let elemSize := (getElemSize outAttr 0).2
  let remains := (List.range attr.arraySize).filter fun i =>
    !(isWrite attr.arraySize indices).getD i false
  (indices.mapIdx fun i (index : ℕ) => blit .value (i * elemSize) (index * elemSize) elemSize) ++
    remains.map fun i : ℕ => keep (isFirstWrite attr) (i * elemSize) (i * elemSize) elemSize

/-- The variables of the loops of `GeometryTensorArraySplit` and `GeometryTensorArrayConcat`. -/
structure Pieces where
  regions : List (Region Source) := []
  sum : ℕ := 0
  last : ℤ := -1

/-- Piece `sum`, of length `len` along the axis, in a tensor of length `axisLen` along it. -/
def plane (inside axisLen sum len : ℕ) : View where
  offset := inside * sum
  stride := ![inside * len, inside * axisLen, 1]

/-- The same piece behind those before it. -/
def stack (inside outside sum len : ℕ) : View where
  offset := inside * outside * sum
  stride := ![inside * outside * len, inside * len, 1]

/-- `regions[regions.size() - 1].size[k] += n`. -/
def growLast (k : Fin 3) (n : ℤ) (regions : List (Region Source)) : List (Region Source) :=
  regions.modify (regions.length - 1) fun r =>
    { r with size := Function.update r.size k (r.size k + n) }

/-- One piece of a split. -/
def splitPiece (inside outside axisLen : ℕ) (p : Pieces) (splitLen : ℕ) : Pieces :=
  { regions :=
      if p.last = splitLen then growLast 0 1 p.regions
      else p.regions ++ [{
        src := plane inside axisLen p.sum splitLen
        dst := stack inside outside p.sum splitLen
        size := ![1, outside, inside * splitLen]
        origin := .value }]
    sum := p.sum + splitLen
    last := splitLen }

/-- `splitLen` in step `i`. -/
def splitLen (lengths : List ℕ) (totalLen i splitSum : ℕ) : ℕ :=
  if scalarSplit lengths then min (lengths.getD 0 0) (totalLen - splitSum) else lengths.getD i 0

/-- `GeometryTensorArraySplit`. -/
def regionsSplit (axis : ℤ) (lengths : List ℕ) (shape : List ℕ) : List (Region Source) :=
  let splitAxis := axisOf axis shape.length
  let outside := (shape.take splitAxis).prod
  let inside := (shape.drop (splitAxis + 1)).prod
  let totalLen := shape.getD splitAxis 0
  ((List.range (splitNum lengths totalLen)).foldl
    (fun p i => splitPiece inside outside totalLen p (splitLen lengths totalLen i p.sum)) {}).regions

/-- One piece of a concatenation. -/
def concatPiece (inside outside concatFinal : ℕ) (p : Pieces) (concatLen : ℕ) : Pieces :=
  if outside = 1 ∧ p.regions ≠ [] then
    { p with regions := growLast 2 (inside * concatLen) p.regions, sum := p.sum + concatLen }
  else if p.last = concatLen then
    { p with regions := growLast 0 1 p.regions, sum := p.sum + concatLen }
  else
    { regions := p.regions ++ [{
        src := stack inside outside p.sum concatLen
        dst := plane inside concatFinal p.sum concatLen
        size := ![1, outside, inside * concatLen]
        origin := .flow }]
      sum := p.sum + concatLen
      last := concatLen }

/-- `concatLen` in step `i`. -/
def concatLen (attr : Attr) (concatAxis : ℕ) (newAxis : Bool) (i : ℕ) : ℕ :=
  if newAxis then 1
  else (attr.elemShape.getD (if attr.isIdenticalShape then 0 else i) []).getD concatAxis 0

/-- `GeometryTensorArrayConcat`, for an output of this shape. -/
def regionsConcat (attr : Attr) (axis : ℤ) (newAxis : Bool) (outShape : List ℕ) :
    List (Region Source) :=
  let concatAxis := axisOf axis outShape.length
  let outside := (outShape.take concatAxis).prod
  let inside := (outShape.drop (concatAxis + 1)).prod
  ((List.range attr.arraySize).foldl (fun p i => concatPiece inside outside
    (outShape.getD concatAxis 0) p (concatLen attr concatAxis newAxis i)) {}).regions

/-- The shape that `TensorArrayConcatComputer` gives its output, if the shapes are valid; there is
at least one element, and the axis is not negative. -/
def concatShape (attr : Attr) (concatAxis : ℕ) (newAxis : Bool) : Option (List ℕ) :=
  match attr.elemShape with
  | [] => none
  | first :: rest =>
    if attr.arraySize = 0 then none else
    let step : Option (List ℕ) → List ℕ → Option (List ℕ) := fun out elemShape =>
      out.bind fun outShape =>
        if outShape.length ≠ elemShape.length then none
        else if newAxis then if outShape = elemShape then some outShape else none
        else if outShape.take concatAxis = elemShape.take concatAxis ∧
            outShape.drop (concatAxis + 1) = elemShape.drop (concatAxis + 1) then
          some (outShape.set concatAxis (outShape.getD concatAxis 0 + elemShape.getD concatAxis 0))
        else none
    ((if attr.isIdenticalShape then rest.map fun _ => first else rest).foldl step (some first)).map
      fun outShape => if newAxis then outShape.insertIdx concatAxis attr.arraySize else outShape

/-- The shape that `TensorArrayGatherComputer` gives its output; without a declared element shape
the number of dimensions stays that of the flat tensor. -/
def gatherShape (attr : Attr) (element_shape : List ℤ) (count : ℕ) : List ℕ :=
  if element_shape.isEmpty then [count]
  else count :: element_shape.mapIdx fun i dimValue =>
    if dimValue < 0 then (attr.elemShape.headD []).getD i 0 else dimValue.toNat

/-- `GeometryTensorArrayGather`. -/
def regionsGather (attr : Attr) (indices : List ℕ) : List (Region Source) :=
  (indices.foldl (fun (p : List (Region Source) × ℤ) (index : ℕ) =>
    let elemSize := getElemSize attr index
    (p.1 ++ [blit .flow elemSize.1 p.2 elemSize.2], p.2 + elemSize.2)) ([], 0)).1

/-! ### Tensors and lists of tensors -/

section Lists

variable {V : Type*}

/-- A tensor. -/
structure Elem (V : Type*) where
  shape : List ℕ
  data : List V
  length_eq : data.length = shape.prod

/-- The list that a tensor array stands for; an element may be not written yet. -/
abbrev Elems (V : Type*) := List (Option (Elem V))

/-- A tensor array: its attributes and the content of the flat tensor. -/
structure TArray (V : Type*) where
  attr : Attr
  content : ℤ → V

variable [Zero V]

def Elem.content (e : Elem V) : ℤ → V := fun k => e.data.getD k.toNat 0

/-- What the regions of an operator read. -/
def sources (flow value : ℤ → V) : Source → ℤ → V
  | .flow => flow
  | .value => value
  | .zero => fun _ => 0

/-- The operations. -/
inductive Action (V : Type*)
  | write (handle : Attr) (index : ℕ) (value : Elem V)
  | insert (handle : Attr) (position : ℤ) (value : Elem V)
  | erase (position : ℤ)
  | scatter (indices : List ℕ) (value : Elem V)
  | split (axis : ℤ) (keepdims : Bool) (lengths : List ℕ) (value : Elem V)

/-- `TensorArray`: a new array of zeros. -/
def create (dynamic_size identical_element_shapes : Bool) (element_shape : List ℤ) (size : ℕ) :
    TArray V where
  attr := createAttr dynamic_size identical_element_shapes element_shape size
  content := fun _ => 0

/-- The array after an operation. -/
def exec (a : TArray V) : Action V → TArray V
  | .write handle index value =>
    let attr := writeAttr a.attr index value.shape
    ⟨attr, raster (regionsWrite false a.attr attr handle index) (sources a.content value.content)⟩
  | .insert handle position value =>
    let attr := insertAttr a.attr position value.shape
    ⟨attr, raster (regionsWrite true a.attr attr handle (fromEnd a.attr position))
      (sources a.content value.content)⟩
  | .erase position =>
    ⟨eraseAttr a.attr position, raster (regionsErase a.attr position) (sources a.content 0)⟩
  | .scatter indices value =>
    let attr := scatterAttr a.attr indices value.shape
    ⟨attr, raster (regionsScatter a.attr attr indices) (sources a.content value.content)⟩
  | .split axis keepdims lengths value =>
    ⟨splitAttr a.attr axis keepdims lengths value.shape,
      raster (regionsSplit axis lengths value.shape) (sources a.content value.content)⟩

/-- A tensor that an operator returns. -/
structure Result (V : Type*) where
  shape : List ℕ
  content : ℤ → V

/-- `TensorArrayRead`. -/
def read (a : TArray V) (index : ℤ) : Result V where
  shape := readShape a.attr index
  content := raster [blit .flow (getElemSize a.attr index).1 0 (getElemSize a.attr index).2]
    (sources a.content 0)

/-- `TensorArrayGather`. -/
def gather (a : TArray V) (element_shape : List ℤ) (indices : List ℕ) : Result V where
  shape := gatherShape a.attr element_shape indices.length
  content := raster (regionsGather a.attr indices) (sources a.content 0)

/-- `TensorArrayConcat`. -/
def concat (a : TArray V) (axis : ℕ) (newAxis : Bool) : Option (Result V) :=
  (concatShape a.attr axis newAxis).map fun outShape =>
    ⟨outShape, raster (regionsConcat a.attr axis newAxis outShape) (sources a.content 0)⟩

/-! ### What the operations describe -/

/-- Element `i` of the first dimension of a tensor. -/
def Elem.row (e : Elem V) (i : ℕ) : Elem V where
  shape := e.shape.tail
  data := (List.range e.shape.tail.prod).map fun k : ℕ => e.content (i * e.shape.tail.prod + k)
  length_eq := by rw [List.length_map, List.length_range]

/-- The part of a tensor from `sum` on, `len` long, along an axis; as a tensor of this shape. -/
def Elem.part (e : Elem V) (axis sum len : ℕ) (shape : List ℕ) : Elem V where
  shape := shape
  data := (List.range shape.prod).map fun k : ℕ =>
    let inside := (e.shape.drop (axis + 1)).prod
    e.content (k / (len * inside) * (e.shape.getD axis 0 * inside) + sum * inside +
      k % (len * inside))
  length_eq := by rw [List.length_map, List.length_range]

/-- The lengths of the pieces of a split. -/
def pieceLens (lengths : List ℕ) (totalLen : ℕ) : List ℕ :=
  if scalarSplit lengths then
    (List.range (upDiv totalLen (lengths.getD 0 0))).map fun i =>
      min (lengths.getD 0 0) (totalLen - i * lengths.getD 0 0)
  else lengths

/-- The pieces of a split. -/
def pieces (axis : ℕ) (keepdims : Bool) (lengths : List ℕ) (value : Elem V) : List (Elem V) :=
  let lens := pieceLens lengths (value.shape.getD axis 0)
  lens.mapIdx fun i len => value.part axis (lens.take i).sum len
    (if scalarSplit lengths = true ∧ keepdims = false then value.shape.eraseIdx axis
      else value.shape.set axis len)

/-- Element `index` is written; the list grows if need be. -/
def Elems.put (elems : Elems V) (index : ℕ) (value : Elem V) : Elems V :=
  (elems ++ List.replicate (index + 1 - elems.length) none).set index (some value)

def Elems.fromEnd (elems : Elems V) (position : ℤ) : ℕ :=
  (position + if position < 0 then (elems.length : ℤ) else 0).toNat

/-- The list after an operation. -/
def describe (elems : Elems V) : Action V → Elems V
  | .write _ index value => elems.put index value
  | .insert _ position value => elems.insertIdx (elems.fromEnd position) (some value)
  | .erase position => elems.eraseIdx (elems.fromEnd position)
  | .scatter indices value =>
    indices.zipIdx.foldl (fun elems p => elems.put p.1 (value.row p.2)) elems
  | .split axis keepdims lengths value =>
    (pieces (axisOf axis value.shape.length) keepdims lengths value).map some

/-- Element `i` of the list is `e`. -/
def Elems.Written (elems : Elems V) (i : ℕ) (e : Elem V) : Prop := elems[i]? = some (some e)

/-! ### The condition -/

/-- A tensor array, and the list that the operations described so far. -/
structure State (V : Type*) where
  array : TArray V
  elems : Elems V

/-- An operation as its operator allows it: indices in range, values with the right shape. -/
def Proper (s : State V) : Action V → Prop
  | .write _ index value =>
    (index < s.elems.length ∨ s.array.attr.isDynamicSize = true) ∧
      (s.array.attr.isIdenticalShape = true → ∀ i e, s.elems.Written i e → e.shape = value.shape)
  | .insert _ position value =>
    s.array.attr.isDynamicSize = true ∧
      -(s.elems.length : ℤ) ≤ position ∧ position ≤ s.elems.length ∧
      (s.array.attr.isIdenticalShape = true → ∀ shape ∈ s.array.attr.elemShape.head?,
        value.shape = shape)
  | .erase position =>
    s.array.attr.isDynamicSize = true ∧
      -(s.elems.length : ℤ) ≤ position ∧ position < s.elems.length
  | .scatter indices value =>
    value.shape.head? = some indices.length ∧
      (∀ index ∈ indices, index < s.elems.length ∨ s.array.attr.isDynamicSize = true) ∧
      (s.array.attr.isIdenticalShape = true → ∀ i e, s.elems.Written i e →
        e.shape = value.shape.tail)
  | .split axis keepdims lengths value =>
    -(value.shape.length : ℤ) ≤ axis ∧ axis < value.shape.length ∧
      if scalarSplit lengths then
        0 < lengths.getD 0 0 ∧ (keepdims = true ∨ lengths.getD 0 0 = 1)
      else lengths.sum = value.shape.getD (axisOf axis value.shape.length) 0

/-- Where element `i` ends. -/
def elemEnd (attr : Attr) (i : ℕ) : ℤ := (getElemSize attr i).1 + (getElemSize attr i).2

/-- When an operation does to the flat tensor what it does to the list. -/
def Kept (s : State V) : Action V → Prop
  | .write handle index value =>
    (value.shape.prod = 0 → ∀ i e, s.elems.Written i e → i ≠ index → e.shape.prod = 0) ∧
      ∀ i e, s.elems.Written i e → index < i →
        (getElemSize s.array.attr index).2 = value.shape.prod ∧
          elemEnd s.array.attr i ≤ handleEnd handle s.elems.length
  | .insert handle position value =>
    (value.shape.prod = 0 → ∀ i e, s.elems.Written i e → e.shape.prod = 0) ∧
      (∀ i e, s.elems.Written i e → s.elems.fromEnd position ≤ i →
        elemEnd s.array.attr i ≤ handleEnd handle s.elems.length) ∧
      (s.array.attr.isIdenticalShape = true ∧ s.array.attr.elemShape ≠ [] ∨
        s.elems.fromEnd position ≤ s.array.attr.elemShape.length ∧
          s.array.attr.elemShape.length ≤ s.elems.length)
  | .erase position =>
    s.array.attr.isIdenticalShape = false →
      s.elems.fromEnd position < s.array.attr.elemShape.length
  | .scatter indices value =>
    s.array.attr.isIdenticalShape = true ∧
      (value.shape.tail.prod ≠ 0 →
        (∀ index ∈ indices, index < indices.length ∨ s.elems.length ≤ index) ∧
          ∀ i e, s.elems.Written i e → i < indices.length → i ∈ indices) ∧
      ∀ pre index post, indices = pre ++ index :: post → s.elems.length ≤ index →
        (∀ index' ∈ post, index' < s.elems.length) → ∀ index' ∈ pre, index' ≤ index
  | .split _ keepdims lengths _ =>
    s.array.attr.elemShape = [] ∧
      (s.array.attr.isIdenticalShape = true → (∀ len ∈ lengths, len = 1) ∧
        (keepdims = true ∨ scalarSplit lengths = true))

/-- Operations on an array together with the list that they describe. -/
def machine : Lib.Machine (State V) (Action V) where
  Allowed s a := Proper s a ∧ Kept s a
  step s a := ⟨exec s.array a, describe s.elems a⟩

/-- A new array: nothing is written. -/
def start (dynamic_size identical_element_shapes : Bool) (element_shape : List ℤ) (size : ℕ) :
    State V :=
  ⟨create dynamic_size identical_element_shapes element_shape size, List.replicate size none⟩

/-! ### What has to hold -/

/-- A result is this tensor. -/
def Result.Is (r : Result V) (shape : List ℕ) (data : List V) : Prop :=
  r.shape = shape ∧ ∀ (k : ℕ) (x : V), data[k]? = some x → r.content k = x

/-- When `TensorArrayGather` gives its output the right shape. -/
def GatherKept (attr : Attr) (element_shape : List ℤ) (shape : List ℕ) : Prop :=
  element_shape.length = shape.length ∧ ∀ i dimValue, element_shape[i]? = some dimValue →
    (if dimValue < 0 then (attr.elemShape.headD []).getD i 0 else dimValue.toNat) =
      shape.getD i 0

/-- Shapes that can be concatenated along an axis, a new one or one of theirs. -/
def Fits (axis : ℕ) (newAxis : Bool) (first shape : List ℕ) : Prop :=
  if newAxis then shape = first ∧ axis ≤ first.length
  else shape.length = first.length ∧ axis < first.length ∧ shape.take axis = first.take axis ∧
    shape.drop (axis + 1) = first.drop (axis + 1)

/-- The length of an element along the axis of a concatenation. -/
def Elem.lenOn (e : Elem V) (axis : ℕ) (newAxis : Bool) : ℕ :=
  if newAxis then 1 else e.shape.getD axis 0

/-- A result is the concatenation of these tensors. -/
def Result.IsConcat (r : Result V) (axis : ℕ) (newAxis : Bool) (first : List ℕ)
    (es : List (Elem V)) : Prop :=
  let lens := es.map fun e => e.lenOn axis newAxis
  let inside := (if newAxis then first.drop axis else first.drop (axis + 1)).prod
  r.shape = (if newAxis then first.insertIdx axis es.length else first.set axis lens.sum) ∧
    ∀ i e, es[i]? = some e → ∀ o < (first.take axis).prod, ∀ x < e.lenOn axis newAxis * inside,
      r.content ((o * (lens.sum * inside) + (lens.take i).sum * inside + x : ℕ)) =
        e.content ((o * (e.lenOn axis newAxis * inside) + x : ℕ))

/-- The tensor array stands for the list, and the operators that return tensors return those of the
list. -/
structure Represents (s : State V) : Prop where
  arraySize : s.array.attr.arraySize = s.elems.length
  elemShape : ∀ i e, s.elems.Written i e → readShape s.array.attr i = e.shape
  flat : ∀ es : List (Elem V), s.elems = es.map some →
    (List.range (es.flatMap Elem.data).length).map (fun k : ℕ => s.array.content k) =
        es.flatMap Elem.data ∧
      ((es.flatMap Elem.data).length ≠ 0 →
        flatLength s.array.attr = (es.flatMap Elem.data).length)
  read : ∀ i e, s.elems.Written i e → (read s.array i).Is e.shape e.data
  gather : ∀ (element_shape : List ℤ) (indices : List ℕ) (es : List (Elem V)) (shape : List ℕ),
    (∀ e ∈ es, e.shape = shape) → indices.map (fun i => s.elems[i]?) = es.map (some ∘ some) →
    GatherKept s.array.attr element_shape shape →
    (gather s.array element_shape indices).Is (indices.length :: shape) (es.flatMap Elem.data)
  concat : ∀ (axis : ℕ) (newAxis : Bool) (first : List ℕ) (es : List (Elem V)), es ≠ [] →
    s.elems = es.map some →
    (∀ e ∈ es, Fits axis newAxis first e.shape) →
    newAxis = true ∨ s.array.attr.isIdenticalShape = false ∨ es.length = 1 →
    ∃ r, concat s.array axis newAxis = some r ∧ r.IsConcat axis newAxis first es

end Lists

end Mnn.TensorArray
