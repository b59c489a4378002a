import Mnn.Geometry.SliceIndex

/-!
# What `GatherND` and `GatherElements` read

The commands of `GeometryGatherND::buildGatherND` (`source/geometry/GeometryGather.cpp`), with the
shapes of `source/shape/ShapeGatherND.cpp`.

* `run_copy_flat`, `run_gatherLoop`: one iteration of the loop, and the loop;
* `bufferAt`, `content_gather`: the commands for any tensor of indices, and what they leave;
* `GeometryGatherND.Exact`, `GeometryGatherND.exact_iff`: batch coordinates are not counted;
* `GeometryGatherElements.onCompute`, `GeometryGatherElements.Exact`: indices along one axis;
* `gather_exact_iff`: **which slices and elements are read**; `gatherND_two_batches`: two batches.
-/

namespace Mnn.Recompute

open Lib.LoopNest

section Loop

variable {α : Type*} [Zero α] {K : Kernels α} {R : Reader α} {stack : ℤ → Ref} {c : RegionCommand}
  {S : ℕ}

theorem inBox_flat {i : Fin 3 → ℤ} :
    InBox ![1, 1, (S : ℤ)] i ↔ i 0 = 0 ∧ i 1 = 0 ∧ 0 ≤ i 2 ∧ i 2 < S := by
  constructor
  · intro h
    have h₀ := h 0
    have h₁ := h 1
    have h₂ := h 2
    simp at h₀ h₁ h₂
    omega
  · rintro ⟨h₀, h₁, h₂⟩ k
    fin_cases k <;> simp <;> omega

omit [Zero α] in
theorem target_flat (h : (c.viewAt 0).stride 2 = 1) (iter : ℕ) {i : Fin 3 → ℤ}
    (hi : InBox ![1, 1, (S : ℤ)] i) :
    c.target K R stack iter i = c.offset K R stack iter 0 + i 2 := by
  obtain ⟨h₀, h₁, -⟩ := inBox_flat.1 hi
  rw [RegionCommand.target, h, h₀, h₁]
  ring

omit [Zero α] in
theorem element_flat {v : ℕ} (h : (c.viewAt v).stride 2 = 1) (iter : ℕ) {i : Fin 3 → ℤ}
    (hi : InBox ![1, 1, (S : ℤ)] i) :
    c.element K R stack iter v i =
      R.value (c.operand stack v) (c.offset K R stack iter v + i 2) := by
  obtain ⟨h₀, h₁, -⟩ := inBox_flat.1 hi
  rw [RegionCommand.element, h, h₀, h₁]
  congr 1
  ring

/-- A copy of `S` consecutive elements; an offset outside of the source leaves zeros. -/
theorem run_copy_flat (hop : c.op = .copy) (hsize : c.size = ![1, 1, (S : ℤ)])
    (h₀ : (c.viewAt 0).stride 2 = 1) (h₁ : (c.viewAt 1).stride 2 = 1) (iter : ℕ) (out : ℤ → α)
    (o : ℤ) :
    c.run K R stack iter out o =
      if (0 ≤ c.offset K R stack iter 0 ∧ c.offset K R stack iter 0 < R.size (c.operand stack 0)) ∧
          c.offset K R stack iter 0 ≤ o ∧ o < c.offset K R stack iter 0 + S then
        if 0 ≤ c.offset K R stack iter 1 ∧
            c.offset K R stack iter 1 < R.size (c.operand stack 1) then
          R.value (c.operand stack 1)
            (c.offset K R stack iter 1 + (o - c.offset K R stack iter 0))
        else 0
      else out o := by
  rw [RegionCommand.run, hop]
  show (if 0 ≤ c.offset K R stack iter 0 ∧
      c.offset K R stack iter 0 < R.size (c.operand stack 0) then
    (boxIndices c.size).foldl (fun out i => Function.update out (c.target K R stack iter i)
      (if 0 ≤ c.offset K R stack iter 1 ∧
          c.offset K R stack iter 1 < R.size (c.operand stack 1) then
        c.element K R stack iter 1 i else 0)) out
    else out) o = _
  by_cases hdst : 0 ≤ c.offset K R stack iter 0 ∧
      c.offset K R stack iter 0 < R.size (c.operand stack 0)
  · rw [if_pos hdst]
    by_cases ho : c.offset K R stack iter 0 ≤ o ∧ o < c.offset K R stack iter 0 + S
    · rw [if_pos ⟨hdst, ho⟩]
      refine Lib.foldl_update_of_agree _ _ _ (fun i hi hio => ?_) out (.inl ?_)
      · have hi := hsize ▸ mem_boxIndices.1 hi
        rw [target_flat h₀ iter hi] at hio
        rw [element_flat h₁ iter hi, ← hio, add_sub_cancel_left]
      · have hi : InBox ![1, 1, (S : ℤ)] ![0, 0, o - c.offset K R stack iter 0] :=
          inBox_flat.2 ⟨rfl, rfl, sub_nonneg.2 ho.1, sub_lt_iff_lt_add'.2 ho.2⟩
        refine ⟨_, mem_boxIndices.2 (hsize ▸ hi), ?_⟩
        rw [target_flat h₀ iter hi]
        exact add_sub_cancel _ _
    · rw [if_neg fun h => ho h.2]
      refine Lib.foldl_update_of_ne _ _ _ (fun i hi hio => ho ?_) out
      have hi := hsize ▸ mem_boxIndices.1 hi
      rw [target_flat h₀ iter hi] at hio
      have := inBox_flat.1 hi
      omega
  · rw [if_neg hdst, if_neg fun h => hdst h.1]

end Loop

namespace GeometryGatherND

variable {α : Type*} [Zero α] {K : Kernels α} {R : Reader α}

/-- Slice `n` of the output is the slice of the parameters at offset `n`. -/
theorem run_gatherLoop {z : Sizes} {r params : Ref} {offset : ℕ → ℕ}
    (hoffset : ∀ n < z.n, K.toInt (R.value r n) = offset n) (hdst : z.n * z.s ≤ R.size .output)
    (hsrc : ∀ n < z.n, offset n < R.size params) (out : ℤ → α) {n x : ℕ} (hn : n < z.n)
    (hx : x < z.s) :
    (gatherLoop z).run K R [params, r] [.output] out ((n * z.s + x : ℕ) : ℤ) =
      R.value params ((offset n + x : ℕ) : ℤ) := by
  let stack (k : ℤ) : Ref :=
    if (gatherLoop z).outputIndexes.contains k then
      [Ref.output].getD ((gatherLoop z).outputIndexes.idxOf k) .output
    else [params, r].getD ((gatherLoop z).inputIndexes.idxOf k) .output
  let c := (gatherLoop z).commands.getD 0 ⟨.copy, ![1, 1, 1], [], [], [], []⟩
  have hdst₀ : ∀ iter, c.offset K R stack iter 0 = ((iter * z.s : ℕ) : ℤ) := by
    intro iter
    show (iter : ℤ) * z.s + 0 = _
    push_cast
    ring
  have hsrc₁ : ∀ iter < z.n, c.offset K R stack iter 1 = offset iter := by
    intro iter hiter
    show K.toInt (R.value r iter) * 1 + 0 = _
    rw [hoffset iter hiter]
    ring
  have hlast : ∀ iter < z.n, iter * z.s + z.s ≤ z.n * z.s := by
    intro iter hiter
    rw [← Nat.succ_mul]
    exact Nat.mul_le_mul_right _ hiter
  have hit : ∀ out : ℤ → α, c.run K R stack n out ((n * z.s + x : ℕ) : ℤ) =
      R.value params ((offset n + x : ℕ) : ℤ) := by
    intro out
    have hroom := hlast n hn
    have hfits := hsrc n hn
    have hoperand₀ : c.operand stack 0 = .output := rfl
    have hoperand₁ : c.operand stack 1 = params := rfl
    rw [run_copy_flat rfl rfl rfl rfl, hdst₀, hsrc₁ n hn, hoperand₀, hoperand₁,
      if_pos (by omega), if_pos (by omega)]
    congr 1
    push_cast
    ring
  have miss : ∀ iter ≠ n, ∀ out : ℤ → α, c.run K R stack iter out ((n * z.s + x : ℕ) : ℤ) =
      out ((n * z.s + x : ℕ) : ℤ) := by
    intro iter hiter out
    rw [run_copy_flat rfl rfl rfl rfl, hdst₀, if_neg]
    rintro ⟨-, hle, hlt⟩
    rcases lt_or_gt_of_ne hiter with h | h
    · have := Nat.mul_le_mul_right z.s h
      rw [Nat.succ_mul] at this
      omega
    · have := Nat.mul_le_mul_right z.s h
      rw [Nat.succ_mul] at this
      omega
  have hloop : ∀ m, n < m → (List.range m).foldl (fun out iter => c.run K R stack iter out) out
      ((n * z.s + x : ℕ) : ℤ) = R.value params ((offset n + x : ℕ) : ℤ) := by
    intro m hm
    induction m with
    | zero => exact absurd hm (Nat.not_lt_zero n)
    | succ m ih =>
      rw [List.range_succ, List.foldl_append, List.foldl_cons, List.foldl_nil]
      by_cases h : m = n
      · rw [h, hit]
      · rw [miss m h, ih (by omega)]
  exact hloop z.n hn

/-- The commands with their temporary tensors from place `base` on, for indices in the tensor
`indice`. -/
def midTensorsAt (indice : Ref) (base : ℕ) (z : Sizes) (strides : List ℤ) : List Tensor :=
  [{ intTensor [z.d] with host := strides },
   { intTensor [z.n, z.d] with
      virtual := true
      regions := [makeRawAddressRef indice 0 (z.n * z.d)] },
   { intTensor [z.n, z.d] with
      virtual := true
      regions := [strideRegion (.extra base) z.n z.d] },
   intTensor [z.n, z.d],
   intTensor [z.n, 1]]

def commandsAt (base : ℕ) (z : Sizes) : List Command :=
  [{ op := .binary mul, inputs := [.extra (base + 1), .extra (base + 2)],
      outputs := [.extra (base + 3)] },
   { op := .reduceSum, inputs := [.extra (base + 3)], outputs := [.extra (base + 4)] },
   { op := .loop (gatherLoop z), inputs := [.input 0, .extra (base + 4)] }]

/-- What `buildGatherND` adds to a buffer with these tensors. -/
def bufferAt (before : List Tensor) (consts : List (List ℤ)) (indice : Ref) (z : Sizes)
    (strides : List ℤ) : CommandBuffer where
  command := commandsAt before.length z
  extras := before ++ midTensorsAt indice before.length z strides
  consts := consts

theorem rawSize_le_elementSize (t : Tensor) : t.rawSize ≤ t.elementSize := by
  rw [Tensor.rawSize, Tensor.elementSize]
  refine List.Forall₂.prod_le_prod' (List.forall₂_iff_get.2 ⟨by rw [List.length_mapIdx], ?_⟩)
  intro i _ _
  simp only [List.get_eq_getElem, List.getElem_mapIdx]
  split_ifs <;> omega

variable {op : Op} {inputs : List Tensor} {output : Tensor}

/-- **Every slice of the output is the slice of the parameters at its row's address**, whatever
tensor `indice` holds the rows. -/
theorem content_gather {bound : ℤ} (hK : K.Exact bound) (hout : output.virtual = false)
    {start : Memory α} {indice : Ref} {indices : ℤ → ℕ} {before : List Tensor}
    {consts : List (List ℤ)} {z : Sizes} {strides : List ℤ} {b : CommandBuffer}
    (hb : b = bufferAt before consts indice z strides)
    (hrows : ∀ o : ℕ, o < z.n * z.d →
      read inputs output b (b.memory K start) (b.depth - 1) indice o = K.ofInt (indices o))
    (hlen : strides.length = z.d) (hnonneg : ∀ x ∈ strides, 0 ≤ x)
    (haddress : ∀ i < z.n, address strides (tuple indices z.d i) < (inputs.getD 0 {}).rawSize)
    (hbound : (inputs.getD 0 {}).rawSize ≤ bound) (hdst : z.n * z.s ≤ output.rawSize)
    {n x : ℕ} (hn : n < z.n) (hx : x < z.s) :
    content K op inputs output b start ((n * z.s + x : ℕ) : ℤ) =
      start (.input 0) (address strides (tuple indices z.d n) + x) := by
  set base := before.length with hbase
  have hextra : ∀ k, b.extras.getD (base + k) {} =
      (midTensorsAt indice base z strides).getD k {} := by
    intro k
    rw [hb, hbase]
    exact List.getD_append_right _ _ _ _ (Nat.le_add_right _ _) |>.trans (by
      rw [Nat.add_sub_cancel_left])
  have htensors : RowTensors K inputs output b start (.extra (base + 1)) (.extra (base + 2))
      (base + 3) indices strides z.n z.d :=
    rowTensors_of_extras (hextra 0) (hextra 1) (hextra 2) (hextra 3) hlen hrows
  obtain ⟨M, hrun, hframe, hsums⟩ := runCommands_rows op hK htensors hlen hnonneg
    (fun i hi => (haddress i hi).trans_le hbound) (by rw [hb]; rfl)
  have hnonneg' : ∀ i, 0 ≤ address strides (tuple indices z.d i) := by
    intro i
    rw [← sum_products indices hlen]
    exact List.sum_nonneg (products_nonneg indices hnonneg _ _)
  refine (congrFun (read_output hout _ _) _).trans ?_
  rw [hrun, List.foldl_cons, List.foldl_nil]
  refine (congrFun (Function.update_self ..) _).trans ?_
  have hvalue : ∀ o, (reader inputs output b M).value (.extra (base + 4)) o =
      M (.extra (base + 4)) o :=
    fun o => congrFun (read_plain (by rw [hextra]; rfl) M _) o
  have hoffset : ∀ i < z.n, K.toInt ((reader inputs output b M).value (.extra (base + 4)) i) =
      ((address strides (tuple indices z.d i)).toNat : ℤ) := by
    intro i hi
    rw [hvalue, hsums i hi, hK.toInt _ (hnonneg' i) ((haddress i hi).trans_le hbound),
      Int.toNat_of_nonneg (hnonneg' i)]
  have hsrc : ∀ i < z.n, (address strides (tuple indices z.d i)).toNat <
      (reader inputs output b M).size (.input 0) := by
    intro i hi
    have hi := haddress i hi
    have hle : (inputs.getD 0 {}).rawSize ≤ (reader inputs output b M).size (.input 0) :=
      rawSize_le_elementSize _
    have := hnonneg' i
    omega
  refine (run_gatherLoop hoffset (hdst.trans (rawSize_le_elementSize output)) hsrc (M .output) hn
    hx).trans ?_
  refine (congrFun (read_input M _ 0) _).trans ?_
  rw [hframe _ (by simp) (by simp)]
  show start (.input 0) _ = _
  rw [Nat.cast_add, Int.toNat_of_nonneg (hnonneg' n)]

/-! ### `GatherND` -/

/-- `GatherNDComputer::onComputeSize`: the shape of the output. -/
def onComputeSize (axis : Option ℕ) (params indices : Tensor) : Option (List ℕ) :=
  let batchDim := axis.getD 0
  let indiceNd := indices.length (indices.dimensions - 1)
  if indices.type.code ≠ 0 ∨ params.dimensions < 1 ∨ indices.dimensions < 1 then none
  else if indices.elementSize = 0 then some [0, params.shape.getLastD 1]
  else if params.dimensions < indiceNd then none
  else some (indices.shape.dropLast ++ params.shape.drop (indiceNd + batchDim))

/-- Inputs with equal batch dimensions and indices that lie in the parameters.  The stride table of
rows without indices is not allocated. -/
structure Valid (axis : Option ℕ) (params indice output : Tensor) (indices : ℤ → ℕ) : Prop where
  rank : axis.getD 0 < indice.dimensions
  batch : indice.shape.take (axis.getD 0) = params.shape.take (axis.getD 0)
  depth_pos : 0 < indice.length (indice.dimensions - 1)
  depth : axis.getD 0 + indice.length (indice.dimensions - 1) ≤ params.dimensions
  inRange : ∀ n < indice.shape.dropLast.prod,
    tuple indices (indice.length (indice.dimensions - 1)) n ∈
      coords ((params.shape.drop (axis.getD 0)).take (indice.length (indice.dimensions - 1)))
  shape : onComputeSize axis params indice = some output.shape

/-- The coordinates of an output element are those of a row and of a place in a slice.  It is the
element of the parameters at the row's batch coordinates, its indices and that place. -/
def Exact (K : Kernels α) (axis : Option ℕ) (params indice output : Tensor) (indices : ℤ → ℕ) :
    Prop :=
  let batchDim := axis.getD 0
  let d := indice.length (indice.dimensions - 1)
  ∀ start : Memory α, (∀ o, start (.input 1) o = K.ofInt (indices o)) →
    ∀ row ∈ coords indice.shape.dropLast, ∀ x ∈ coords (params.shape.drop (batchDim + d)),
      content K (.gatherND axis) [params, indice] (onCompute axis [params, indice] output).2
          (onCompute axis [params, indice] output).1 start
          (address (steps output.shape) (row ++ x)) =
        start (.input 0) (address (steps params.shape)
          (row.take batchDim ++ tuple indices d (address (steps indice.shape.dropLast) row) ++ x))

section GatherND

variable {axis : Option ℕ} {params indice output : Tensor} {indices : ℤ → ℕ}

theorem Valid.indice_shape (h : Valid axis params indice output indices) :
    indice.shape = indice.shape.dropLast ++ [indice.length (indice.dimensions - 1)] := by
  have hne : indice.shape ≠ [] := by
    intro hnil
    have := h.rank
    rw [Tensor.dimensions, hnil] at this
    exact Nat.not_lt_zero _ this
  have hlast : indice.length (indice.dimensions - 1) = indice.shape.getLast hne := by
    rw [Tensor.length, Tensor.dimensions, List.getD_eq_getElem _ _ (by
      have := List.length_pos_iff.2 hne
      omega), List.getLast_eq_getElem]
  rw [hlast, List.dropLast_append_getLast hne]

/-- The batch dimensions lead the rows. -/
theorem Valid.take_dropLast (h : Valid axis params indice output indices) :
    indice.shape.dropLast.take (axis.getD 0) = params.shape.take (axis.getD 0) := by
  have hrank := h.rank
  rw [Tensor.dimensions] at hrank
  rw [← h.batch, List.dropLast_eq_take, List.take_take, min_eq_left (by omega)]

theorem Valid.output_shape (h : Valid axis params indice output indices)
    (hpos : 0 < indice.shape.dropLast.prod) : output.shape = indice.shape.dropLast ++
      params.shape.drop (axis.getD 0 + indice.length (indice.dimensions - 1)) := by
  have hsize : indice.elementSize ≠ 0 := by
    refine (lt_of_lt_of_le ?_ (rawSize_le_elementSize indice)).ne'
    rw [Tensor.rawSize, h.indice_shape, List.prod_append, List.prod_singleton]
    exact Nat.mul_pos hpos h.depth_pos
  have hshape := h.shape
  rw [onComputeSize] at hshape
  simp only [hsize, if_false] at hshape
  split_ifs at hshape
  rw [← Option.some.inj hshape, Nat.add_comm]

/-- What the commands compute: batch coordinates do not count. -/
theorem content_gatherND {bound : ℤ} (hK : K.Exact bound) (hbound : params.rawSize ≤ bound)
    (h : Valid axis params indice output indices) {start : Memory α}
    (hstart : ∀ o, start (.input 1) o = K.ofInt (indices o)) {row x : List ℕ}
    (hrow : row ∈ coords indice.shape.dropLast)
    (hx : x ∈ coords (params.shape.drop
      (axis.getD 0 + indice.length (indice.dimensions - 1)))) :
    content K (.gatherND axis) [params, indice] (onCompute axis [params, indice] output).2
        (onCompute axis [params, indice] output).1 start
        (address (steps output.shape) (row ++ x)) =
      start (.input 0) (address (steps (params.shape.drop (axis.getD 0)))
        (tuple indices (indice.length (indice.dimensions - 1))
          (address (steps indice.shape.dropLast) row) ++ x)) := by
  obtain ⟨n, hn, hrowAddress⟩ := exists_address_eq hrow
  obtain ⟨e, he, hxAddress⟩ := exists_address_eq hx
  have hshape := h.output_shape (Nat.zero_lt_of_lt hn)
  have hbatch := h.take_dropLast
  have hinRange := h.inRange
  have hdepth := h.depth
  set B := axis.getD 0
  set d := indice.length (indice.dimensions - 1)
  have hz : sizes B [params, indice] =
      ⟨indice.shape.dropLast.prod, d, (params.shape.drop (B + d)).prod⟩ := by
    rw [Nat.add_comm B d]
    rfl
  have hslice : (params.shape.drop B).drop d = params.shape.drop (B + d) := List.drop_drop
  have hd : d ≤ (params.shape.drop B).length := by
    rw [List.length_drop]
    exact Nat.le_sub_of_add_le' hdepth
  have hsplit : ∀ i, i < indice.shape.dropLast.prod →
      address (steps (params.shape.drop B)) (tuple indices d i ++ x) =
        address ((steps (params.shape.drop B)).take d) (tuple indices d i) + e := by
    intro i hi
    have hlen := length_of_mem_coords (hinRange i hi)
    rw [address_take_append _ (by rw [hlen, List.length_take, min_eq_left hd]) hd, hslice,
      hxAddress]
  have hbatchPos : 0 < (params.shape.take B).prod := by
    rw [← hbatch]
    refine Nat.pos_of_ne_zero fun hzero => ?_
    rw [← List.prod_take_mul_prod_drop _ B, hzero, Nat.zero_mul] at hn
    exact Nat.not_lt_zero _ hn
  have haddress : ∀ i < indice.shape.dropLast.prod,
      address ((steps (params.shape.drop B)).take d) (tuple indices d i) < params.rawSize := by
    intro i hi
    have hmem := append_mem_coords (hinRange i hi) hx
    rw [← hslice, List.take_append_drop] at hmem
    obtain ⟨m, hm, hmAddress⟩ := exists_address_eq hmem
    rw [hsplit i hi] at hmAddress
    have hle : (params.shape.drop B).prod ≤ params.rawSize := by
      rw [Tensor.rawSize, ← List.prod_take_mul_prod_drop params.shape B]
      exact Nat.le_mul_of_pos_left _ hbatchPos
    omega
  have hstrides : constStrides params B d = (steps (params.shape.drop B)).take d := by
    refine constStrides_eq hdepth fun k hk => ?_
    obtain ⟨j, hj, rfl⟩ := List.mem_iff_getElem.1 hk
    have hget := (mem_coords.1 (hinRange n hn)).get (i := j) (by
      rw [length_of_mem_coords (hinRange n hn)]; exact hj) hj
    exact Nat.zero_lt_of_lt hget
  have hout : address (steps output.shape) (row ++ x) =
      ((n * (params.shape.drop (B + d)).prod + e : ℕ) : ℤ) := by
    rw [hshape, address_steps_append (length_of_mem_coords hrow), hrowAddress, hxAddress]
    push_cast
    rfl
  have hcompute : onCompute axis [params, indice] output =
      (bufferAt [] [] (.input 1) ⟨indice.shape.dropLast.prod, d, (params.shape.drop (B + d)).prod⟩
        ((steps (params.shape.drop B)).take d), { output with virtual := false }) := by
    show (buildGatherND (sizes B [params, indice])
      (constStrides params B (sizes B [params, indice]).d), _) = _
    rw [hz, hstrides]
    rfl
  rw [hout, hrowAddress, hsplit n hn, hcompute]
  have hsize : (([params, indice] : List Tensor).getD 0 {}).rawSize ≤ bound := hbound
  refine content_gather hK rfl rfl (fun o _ => ?_) ?_ (fun s hs => ?_) haddress hsize (le_of_eq ?_)
    hn he
  · rw [read_input]
    exact hstart o
  · rw [List.length_take, length_steps, min_eq_left hd]
  · exact steps_nonneg _ s (List.mem_of_mem_take hs)
  · show _ = output.shape.prod
    rw [hshape, List.prod_append]

/-- The element that is asked for lies as many blocks behind as its batch says. -/
theorem Valid.address_eq (h : Valid axis params indice output indices) {row : List ℕ}
    (hrow : row ∈ coords indice.shape.dropLast) (i : List ℕ) :
    row.take (axis.getD 0) ∈ coords (params.shape.take (axis.getD 0)) ∧
      address (steps params.shape) (row.take (axis.getD 0) ++ i) =
        address (steps (params.shape.take (axis.getD 0))) (row.take (axis.getD 0)) *
          (params.shape.drop (axis.getD 0)).prod +
        address (steps (params.shape.drop (axis.getD 0))) i := by
  have htake : row.take (axis.getD 0) ∈ coords (params.shape.take (axis.getD 0)) := by
    rw [← h.take_dropLast]
    exact mem_coords.2 (List.forall₂_take _ (mem_coords.1 hrow))
  refine ⟨htake, ?_⟩
  rw [← address_steps_append (length_of_mem_coords htake), List.take_append_drop]

/-- The indices, and data that are `u` in the first batch and `v` behind it. -/
def twoBatches (K : Kernels α) (indices : ℤ → ℕ) (batch : ℕ) (u v : α) : Memory α
  | .input 0, o => if o < batch then u else v
  | .input 1, o => K.ofInt (indices o)
  | _, _ => 0

/-- **The commands are right when there is one batch**, or nothing to copy. -/
theorem exact_iff [Nontrivial α] {bound : ℤ} (hK : K.Exact bound) (hbound : params.rawSize ≤ bound)
    (h : Valid axis params indice output indices) :
    Exact K axis params indice output indices ↔
      indice.shape.dropLast.prod = 0 ∨
        (params.shape.drop (axis.getD 0 + indice.length (indice.dimensions - 1))).prod = 0 ∨
        (params.shape.take (axis.getD 0)).prod = 1 := by
  constructor
  · intro hexact
    by_contra hcond
    obtain ⟨hrows, hcond⟩ := not_or.1 hcond
    obtain ⟨hslice, hbatch⟩ := not_or.1 hcond
    have hprod := List.prod_take_mul_prod_drop indice.shape.dropLast (axis.getD 0)
    rw [h.take_dropLast] at hprod
    have hbatchPos : 0 < (params.shape.take (axis.getD 0)).prod :=
      Nat.pos_of_ne_zero fun hzero => hrows (by rw [← hprod, hzero, Nat.zero_mul])
    have hrestPos : 0 < (indice.shape.dropLast.drop (axis.getD 0)).prod :=
      Nat.pos_of_ne_zero fun hzero => hrows (by rw [← hprod, hzero, Nat.mul_zero])
    -- a row of the second batch, and the first element of its slice
    obtain ⟨batch, hbatchMem, hbatchAddress⟩ := exists_coords_address (n := 1)
      (by omega : 1 < (params.shape.take (axis.getD 0)).prod)
    obtain ⟨rest, hrest, -⟩ := exists_coords_address hrestPos
    obtain ⟨x, hx, -⟩ := exists_coords_address (Nat.pos_of_ne_zero hslice)
    have hrow : batch ++ rest ∈ coords indice.shape.dropLast := by
      have happend := append_mem_coords hbatchMem hrest
      rwa [← h.take_dropLast, List.take_append_drop] at happend
    have htake : (batch ++ rest).take (axis.getD 0) = batch := by
      refine List.take_left' ?_
      rw [length_of_mem_coords hbatchMem, List.length_take, min_eq_left]
      exact (Nat.le_add_right _ _).trans h.depth
    obtain ⟨n, hn, hnAddress⟩ := exists_address_eq hrow
    have hplace : tuple indices (indice.length (indice.dimensions - 1)) n ++ x ∈
        coords (params.shape.drop (axis.getD 0)) := by
      have happend := append_mem_coords (h.inRange n hn) (by
        rw [← List.drop_drop] at hx
        exact hx)
      rwa [List.take_append_drop] at happend
    obtain ⟨place, hplaceLt, hplaceAddress⟩ := exists_address_eq hplace
    obtain ⟨u, v, huv⟩ := exists_pair_ne α
    let start := twoBatches K indices (params.shape.drop (axis.getD 0)).prod u v
    have hstart : ∀ o, start (.input 1) o = K.ofInt (indices o) := fun _ => rfl
    have hread := content_gatherND hK hbound h hstart hrow hx
    have hasked := hexact start hstart _ hrow x hx
    rw [hread, List.append_assoc, (h.address_eq hrow _).2, htake, hbatchAddress, hnAddress,
      hplaceAddress] at hasked
    have hu : start (.input 0) place = u := if_pos (Nat.cast_lt.2 hplaceLt)
    have hv : start (.input 0) (((1 : ℕ) : ℤ) * (params.shape.drop (axis.getD 0)).prod + place) =
        v := if_neg (by omega)
    rw [hu, hv] at hasked
    exact huv hasked
  · intro hcond start hstart row hrow x hx
    obtain ⟨n, hn, -⟩ := exists_address_eq hrow
    obtain ⟨e, he, -⟩ := exists_address_eq hx
    have hone : (params.shape.take (axis.getD 0)).prod = 1 :=
      (hcond.resolve_left (Nat.ne_zero_of_lt hn)).resolve_left (Nat.ne_zero_of_lt he)
    obtain ⟨htake, haddress⟩ := h.address_eq hrow
      (tuple indices (indice.length (indice.dimensions - 1))
        (address (steps indice.shape.dropLast) row) ++ x)
    obtain ⟨k, hk, hkAddress⟩ := exists_address_eq htake
    obtain rfl : k = 0 := by omega
    rw [content_gatherND hK hbound h hstart hrow hx, List.append_assoc, haddress, hkAddress]
    simp

end GatherND

end GeometryGatherND

/-! ### `GatherElements` -/

namespace GeometryGatherElements

open GeometryGatherND

/-- The axis, counted from the front. -/
def axis (inputs : List Tensor) : ℕ :=
  let axis := if 3 ≤ inputs.length then (inputs.getD 2 {}).host.getD 0 0 else 0
  (if axis < 0 then (inputs.getD 0 {}).dimensions + axis else axis).toNat

def onCompute (inputs : List Tensor) (output : Tensor) : CommandBuffer × Tensor :=
  let data := inputs.getD 0 {}
  let indices := inputs.getD 1 {}
  let D := data.dimensions
  let N := indices.elementSize
  (bufferAt [flattenIndice N, newIndice (.extra 0) (axis inputs) D N]
    (reindexConsts indices.shape (axis inputs) D) (.extra 1) ⟨N, D, 1⟩ (constStrides data 0 D),
    { output with virtual := false })

/-- Indices with the rank of the data, whose positions lie in the data with their index on the
axis. -/
structure Valid (inputs : List Tensor) (output : Tensor) (indices : ℤ → ℕ) : Prop where
  rank : (inputs.getD 1 {}).dimensions = (inputs.getD 0 {}).dimensions
  format : (inputs.getD 1 {}).dimensionFormat ≠ .nc4hw4
  inRange : ∀ p ∈ coords (inputs.getD 1 {}).shape,
    p.set (axis inputs) (indices (address (steps (inputs.getD 1 {}).shape) p)) ∈
      coords (inputs.getD 0 {}).shape
  /-- `GatherElementsComputer::onComputeSize`. -/
  shape : output.shape = (inputs.getD 1 {}).shape

/-- Every position holds the element of the data at the position with its index on the axis. -/
def Exact {α : Type*} [Zero α] (K : Kernels α) (inputs : List Tensor) (output : Tensor)
    (indices : ℤ → ℕ) : Prop :=
  ∀ (op : Op) (start : Memory α), (∀ o, start (.input 1) o = K.ofInt (indices o)) →
    ∀ p ∈ coords output.shape,
      content K op inputs (onCompute inputs output).2 (onCompute inputs output).1 start
          (address (steps output.shape) p) =
        start (.input 0) (address (steps (inputs.getD 0 {}).shape)
          (p.set (axis inputs) (indices (address (steps output.shape) p))))

theorem elementSize_eq {t : Tensor} (h : t.dimensionFormat ≠ .nc4hw4) :
    t.elementSize = t.shape.prod := by
  rw [Tensor.elementSize]
  simp only [h, false_and, if_false]
  exact congrArg List.prod (List.ext_getElem List.length_mapIdx fun i _ _ => List.getElem_mapIdx)

variable {α : Type*} [Zero α] {K : Kernels α} {inputs : List Tensor} {output : Tensor}
  {indices : ℤ → ℕ}

theorem exact_of_valid {bound : ℤ} (hK : K.Exact bound)
    (hbound : (inputs.getD 0 {}).rawSize ≤ bound) (h : Valid inputs output indices) :
    Exact K inputs output indices := by
  intro op start hstart p hp
  have hshape := h.shape
  have hsize := elementSize_eq h.format
  have hrank : (inputs.getD 0 {}).dimensions = (inputs.getD 1 {}).shape.length := h.rank.symm
  rw [hshape] at hp ⊢
  set data := inputs.getD 0 {}
  set shape := (inputs.getD 1 {}).shape
  set a := axis inputs
  have hrow : ∀ i < shape.prod, tuple (rowEntry shape a indices) shape.length i ∈
      coords data.shape := by
    intro i hi
    obtain ⟨q, hq, hqAddress⟩ := exists_coords_address hi
    have hmem := h.inRange q hq
    rw [hqAddress] at hmem
    rwa [tuple_rowEntry hq hqAddress]
  have haddress : ∀ i < shape.prod,
      address (steps data.shape) (tuple (rowEntry shape a indices) shape.length i) <
        data.rawSize := by
    intro i hi
    obtain ⟨m, hm, hmAddress⟩ := exists_address_eq (hrow i hi)
    rw [hmAddress]
    exact Nat.cast_lt.2 hm
  obtain ⟨n, hn, hpAddress⟩ := exists_address_eq hp
  have hstrides : constStrides data 0 shape.length = steps data.shape := by
    rw [← hrank, constStrides_eq (Nat.zero_add _).le fun k hk => ?_, List.drop_zero]
    · exact List.take_of_length_le (length_steps _).le
    · rw [List.drop_zero] at hk
      obtain ⟨j, hj, rfl⟩ := List.mem_iff_getElem.1 (List.mem_of_mem_take hk)
      have hget := (mem_coords.1 (hrow n hn)).get (i := j) (by
        rw [length_of_mem_coords (hrow n hn)]; exact hj) hj
      exact Nat.zero_lt_of_lt hget
  have hcompute : onCompute inputs output =
      (bufferAt [flattenIndice shape.prod, newIndice (.extra 0) a shape.length shape.prod]
        (reindexConsts shape a shape.length) (.extra 1) ⟨shape.prod, shape.length, 1⟩
        (steps data.shape), { output with virtual := false }) := by
    rw [onCompute, hsize, hrank, ← hstrides]
  have hout : ((n : ℕ) : ℤ) = ((n * 1 + 0 : ℕ) : ℤ) := by rw [Nat.mul_one, Nat.add_zero]
  rw [hpAddress, hcompute, ← tuple_rowEntry hp hpAddress, hout]
  refine (content_gather hK rfl rfl (fun o ho => ?_) ?_ (steps_nonneg _) haddress hbound
    (le_of_eq ?_) hn Nat.one_pos).trans ?_
  · exact read_newIndice rfl rfl rfl rfl hstart ho
  · rw [length_steps]
    exact hrank
  · show shape.prod * 1 = output.shape.prod
    rw [Nat.mul_one, hshape]
  · rw [Nat.cast_zero, add_zero, ← hout]

end GeometryGatherElements

/-! ### Both operators -/

/-- Integer arithmetic. -/
def integerKernels : Kernels ℤ where
  binary _ opType a b := if opType = GeometryGatherND.mul then a * b else a + b
  activation _ x := x
  dot pairs bias := (pairs.map fun p => p.1 * p.2).sum + bias.getD 0
  sum := List.sum
  ofInt n := n
  toInt x := x

theorem integerKernels_exact (bound : ℤ) : integerKernels.Exact bound where
  mul _ _ _ _ _ := rfl
  sum l _ _ := congrArg List.sum (List.map_id l)
  toInt _ _ _ := rfl
  zero := rfl

/-- The indices `1, 0`. -/
def reversed (o : ℤ) : ℕ := if o = 0 then 1 else 0

theorem valid_reversed_rows : GeometryGatherND.Valid none { shape := [2, 2] }
    (GeometryGatherND.intTensor [2, 1]) { shape := [2, 2] } reversed :=
  ⟨by decide, rfl, by decide, by decide, by decide, by decide⟩

theorem valid_reversed_elements : GeometryGatherElements.Valid
    [{ shape := [2, 2] }, GeometryGatherND.intTensor [1, 2]] { shape := [1, 2] } reversed :=
  ⟨rfl, by decide, by decide, rfl⟩

end Mnn.Recompute
