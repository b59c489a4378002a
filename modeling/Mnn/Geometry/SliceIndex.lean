import Mnn.Geometry.BroadcastTo
import Mnn.Lib.LoopNest

/-!
# Offsets of indexed slices

`GatherND`, `GatherElements`, `ScatterND` and `ScatterElements` multiply rows of indices with
strides and sum them (`GeometryGather.cpp`, `GeometryScatter.cpp`).

* `address_append`, `address_lt`, `exists_coords_address`: row-major addresses of coordinates;
* `sliceStrides`, `sliceStrides_eq`: the strides, one division at a time;
* `Kernels.Exact`: integers below a bound are exact;
* `tuple`: one row of indices; `sum_rowOffset`: **the sum is the address of its slice**.
-/

namespace Mnn.Recompute

open Lib.LoopNest

/-! ### Addresses -/

theorem steps_append (l l' : List ℕ) :
    steps (l ++ l') = (steps l).map (· * (l'.prod : ℤ)) ++ steps l' := by
  induction l with
  | nil => rfl
  | cons n l ih =>
    rw [List.cons_append, steps, ih, steps, List.map_cons, List.prod_append, Nat.cast_mul]
    rfl

theorem length_steps (l : List ℕ) : (steps l).length = l.length := by
  induction l with
  | nil => rfl
  | cons n l ih => rw [steps, List.length_cons, List.length_cons, ih]

theorem getElem_steps (l : List ℕ) (d : ℕ) (h : d < (steps l).length) :
    (steps l)[d] = (l.drop (d + 1)).prod := by
  induction l generalizing d with
  | nil => exact absurd h (Nat.not_lt_zero d)
  | cons n l ih =>
    cases d with
    | zero => rfl
    | succ d => exact ih d _

theorem address_append {s : List ℤ} {i : List ℕ} (h : i.length = s.length) (s' : List ℤ)
    (i' : List ℕ) : address (s ++ s') (i ++ i') = address s i + address s' i' := by
  rw [address, List.zipWith_append h, List.sum_append, address, address]

theorem address_map_mul (s : List ℤ) (i : List ℕ) (c : ℤ) :
    address (s.map (· * c)) i = address s i * c := by
  induction s generalizing i with
  | nil => simp [address]
  | cons a s ih =>
    cases i with
    | nil => simp
    | cons k i => rw [List.map_cons, address_cons, address_cons, ih, add_mul, mul_assoc]

/-- Row-major addresses: the leading coordinates choose a block. -/
theorem address_steps_append {l i : List ℕ} (h : i.length = l.length) (l' i' : List ℕ) :
    address (steps (l ++ l')) (i ++ i') =
      address (steps l) i * l'.prod + address (steps l') i' := by
  rw [steps_append, address_append (by rw [List.length_map, length_steps, h]), address_map_mul]

theorem exists_address_eq {l i : List ℕ} (h : i ∈ coords l) :
    ∃ n < l.prod, address (steps l) i = n := by
  have hmem := Multiset.mem_map_of_mem (address (steps l)) h
  rw [map_address_coords] at hmem
  obtain ⟨n, hn, heq⟩ := Multiset.mem_map.1 hmem
  exact ⟨n, Multiset.mem_range.1 hn, heq.symm⟩

theorem exists_coords_address {l : List ℕ} {n : ℕ} (h : n < l.prod) :
    ∃ i ∈ coords l, address (steps l) i = n := by
  have hmem : (n : ℤ) ∈ (coords l).map (address (steps l)) := by
    rw [map_address_coords]
    exact Multiset.mem_map_of_mem _ (Multiset.mem_range.2 h)
  exact Multiset.mem_map.1 hmem

/-- A coordinate as it is computed from the address. -/
theorem coord_eq {l p : List ℕ} (h : p ∈ coords l) {n : ℕ} (hn : address (steps l) p = n) {i : ℕ}
    (hi : i < p.length) : p[i] = n / (l.drop (i + 1)).prod % l.getD i 1 := by
  induction l generalizing p n i with
  | nil =>
    rw [mem_coords, List.forall₂_nil_right_iff] at h
    subst h
    exact absurd hi (Nat.not_lt_zero i)
  | cons d l ih =>
    rw [mem_coords, List.forall₂_cons_right_iff] at h
    obtain ⟨k, q, hk, hq, rfl⟩ := h
    obtain ⟨m, hm, hmq⟩ := exists_address_eq (mem_coords.2 hq)
    rw [steps, address_cons, hmq] at hn
    have hnat : n = k * l.prod + m := by exact_mod_cast hn.symm
    cases i with
    | zero =>
      show k = n / l.prod % d
      rw [hnat, Nat.mul_comm, Nat.mul_add_div (Nat.zero_lt_of_lt hm), Nat.div_eq_of_lt hm,
        Nat.add_zero, Nat.mod_eq_of_lt hk]
    | succ i =>
      have hi : i < q.length := Nat.lt_of_succ_lt_succ hi
      have hil : i < l.length := (hq.length_eq ▸ hi)
      have hsplit : l.prod = (l.take i).prod * l.getD i 1 * (l.drop (i + 1)).prod := by
        rw [List.getD_eq_getElem _ _ hil, ← List.prod_take_mul_prod_drop l (i + 1),
          List.prod_take_succ l i hil]
      have hinner : 0 < (l.drop (i + 1)).prod := by
        refine Nat.pos_of_ne_zero fun hzero => ?_
        rw [hsplit, hzero, Nat.mul_zero] at hm
        exact Nat.not_lt_zero m hm
      show q[i] = n / (l.drop (i + 1)).prod % l.getD i 1
      rw [ih (mem_coords.2 hq) hmq hi, hnat, hsplit, ← Nat.mul_assoc, Nat.mul_comm (_ * _)
        (l.drop (i + 1)).prod, Nat.mul_add_div hinner, ← Nat.mul_assoc, Nat.mul_add_mod']

theorem length_of_mem_coords {l i : List ℕ} (h : i ∈ coords l) : i.length = l.length :=
  (mem_coords.1 h).length_eq

theorem append_mem_coords {l l' i i' : List ℕ} (h : i ∈ coords l) (h' : i' ∈ coords l') :
    i ++ i' ∈ coords (l ++ l') :=
  mem_coords.2 (List.rel_append (mem_coords.1 h) (mem_coords.1 h'))

theorem steps_drop (l : List ℕ) (d : ℕ) : (steps l).drop d = steps (l.drop d) := by
  induction l generalizing d with
  | nil => simp [steps]
  | cons n l ih =>
    cases d with
    | zero => rfl
    | succ d => exact ih d

/-- An address is the offset of a slice and a place in it. -/
theorem address_take_append (l : List ℕ) {d : ℕ} {i : List ℕ} (h : i.length = d)
    (hd : d ≤ l.length) (i' : List ℕ) :
    address (steps l) (i ++ i') =
      address ((steps l).take d) i + address (steps (l.drop d)) i' := by
  rw [← steps_drop, ← address_append (by
    rw [List.length_take, length_steps, h, min_eq_left hd]), List.take_append_drop]

/-! ### Strides -/

/-- The strides of the first `d` dimensions, from the number of elements of all. -/
def sliceStrides (dims : List ℕ) (d : ℕ) : ℕ × List ℤ :=
  (List.range d).foldl (fun (size, strides) i =>
    let dimCount := size / dims.getD i 1
    (dimCount, strides ++ [(dimCount : ℤ)])) (dims.prod, [])

theorem sliceStrides_eq {dims : List ℕ} {d : ℕ} (hd : d ≤ dims.length)
    (hpos : ∀ n ∈ dims.take d, 0 < n) :
    sliceStrides dims d = ((dims.drop d).prod, (steps dims).take d) := by
  induction d with
  | zero => rfl
  | succ d ih =>
    have hget : (dims.take (d + 1)) = dims.take d ++ [dims[d]] := List.take_succ_eq_append_getElem _
    have hdrop : dims.drop d = dims[d] :: dims.drop (d + 1) := List.drop_eq_getElem_cons _
    have hdpos : 0 < dims[d] := hpos _ (hget ▸ List.mem_append_right _ (List.mem_singleton_self _))
    have hstep := ih (by omega) fun n hn =>
      hpos n (hget ▸ List.mem_append_left _ hn)
    rw [sliceStrides] at hstep ⊢
    rw [List.range_succ, List.foldl_append, hstep, List.foldl_cons, List.foldl_nil,
      List.getD_eq_getElem _ _ (by omega : d < dims.length), hdrop, List.prod_cons]
    show (dims[d] * (dims.drop (d + 1)).prod / dims[d], (steps dims).take d ++
      [((dims[d] * (dims.drop (d + 1)).prod / dims[d] : ℕ) : ℤ)]) = _
    rw [Nat.mul_div_cancel_left _ hdpos, List.take_succ_eq_append_getElem (by
      rw [length_steps]; exact hd), getElem_steps]

theorem steps_nonneg (l : List ℕ) : ∀ s ∈ steps l, 0 ≤ s := by
  induction l with
  | nil => exact fun s hs => absurd hs List.not_mem_nil
  | cons n l ih => exact List.forall_mem_cons.2 ⟨Int.natCast_nonneg _, ih⟩

theorem constStrides_eq {params : Tensor} {batchDim d : ℕ} (hd : batchDim + d ≤ params.dimensions)
    (hpos : ∀ n ∈ (params.shape.drop batchDim).take d, 0 < n) :
    GeometryGatherND.constStrides params batchDim d =
      (steps (params.shape.drop batchDim)).take d := by
  have hslice := sliceStrides_eq (by
    rw [List.length_drop]; exact Nat.le_sub_of_add_le' hd) hpos
  have hlength : ∀ i, params.length (i + batchDim) = (params.shape.drop batchDim).getD i 1 := by
    intro i
    rw [Tensor.length, List.getD_eq_getElem?_getD, List.getD_eq_getElem?_getD,
      List.getElem?_drop, add_comm]
  rw [GeometryGatherND.constStrides]
  simp only [hlength]
  exact congrArg Prod.snd hslice

/-! ### Integers -/

variable {α : Type*}

/-- Integers from `0` up to the bound are exact, and the bits of `0` are zero. -/
structure Kernels.Exact [Zero α] (K : Kernels α) (bound : ℤ) : Prop where
  mul : ∀ a b, 0 ≤ a → 0 ≤ b → a * b < bound →
    K.binary ⟨0, 32⟩ GeometryGatherND.mul (K.ofInt a) (K.ofInt b) = K.ofInt (a * b)
  sum : ∀ l : List ℤ, (∀ n ∈ l, 0 ≤ n) → l.sum < bound → K.sum (l.map K.ofInt) = K.ofInt l.sum
  toInt : ∀ n, 0 ≤ n → n < bound → K.toInt (K.ofInt n) = n
  zero : K.ofInt 0 = 0

/-- Row `n` of an index tensor with rows of `d` entries. -/
def tuple (indices : ℤ → ℕ) (d : ℕ) (n : ℤ) : List ℕ :=
  (List.range d).map fun k : ℕ => indices (n * d + k)

/-- The products of a row, as they are summed. -/
def products (indices : ℤ → ℕ) (strides : List ℤ) (d : ℕ) (n : ℤ) : List ℤ :=
  (List.range d).map fun k : ℕ => (indices (n * d + k) : ℤ) * strides.getD k 0

theorem sum_products (indices : ℤ → ℕ) {strides : List ℤ} {d : ℕ} (hd : strides.length = d)
    (n : ℤ) : (products indices strides d n).sum = address strides (tuple indices d n) := by
  rw [address, products, tuple]
  congr 1
  refine List.ext_getElem ?_ fun k hk _ => ?_
  · rw [List.length_map, List.length_zipWith, List.length_map, List.length_range, hd, min_self]
  · rw [List.length_map, List.length_range] at hk
    rw [List.getElem_zipWith, List.getElem_map, List.getElem_map, List.getElem_range,
      List.getD_eq_getElem _ _ (hd ▸ hk)]

theorem products_nonneg (indices : ℤ → ℕ) {strides : List ℤ} (h : ∀ s ∈ strides, 0 ≤ s) (d : ℕ)
    (n : ℤ) : ∀ x ∈ products indices strides d n, 0 ≤ x := by
  intro x hx
  obtain ⟨k, -, rfl⟩ := List.mem_map.1 hx
  refine mul_nonneg (Nat.cast_nonneg _) ?_
  by_cases hk : k < strides.length
  · rw [List.getD_eq_getElem _ _ hk]
    exact h _ (List.getElem_mem hk)
  · rw [List.getD_eq_default _ _ (not_lt.1 hk)]

/-! ### Commands -/

theorem index_pad_self {shape : List ℕ} {o : ℕ} (ho : o < shape.prod) :
    Lib.Broadcast.index (Lib.Broadcast.pad shape shape) o = o := by
  refine Lib.Broadcast.index_self (fun p hp => ?_) (by rwa [Lib.Broadcast.largeSize_pad])
  rw [Lib.Broadcast.pad, Nat.sub_self, List.replicate_zero, List.nil_append] at hp
  obtain ⟨i, hi, rfl⟩ := List.mem_iff_getElem.1 hp
  rw [List.getElem_zip]

section Commands

variable [Zero α] {K : Kernels α} {op : Op} {inputs : List Tensor} {output : Tensor}
  {b : CommandBuffer}

omit [Zero α] in
theorem tensorAt_extra (inputs : List Tensor) (output : Tensor) (b : CommandBuffer) (k : ℕ) :
    tensorAt inputs output b (.extra k) = b.extras.getD k {} := rfl

theorem read_plain {k : ℕ} (hk : (b.extras.getD k {}).virtual = false) (memory : Memory α)
    (n : ℕ) : read inputs output b memory n (.extra k) = memory (.extra k) := by
  cases n with
  | zero => rfl
  | succ n => exact if_neg (by rw [tensorAt_extra, hk]; exact Bool.false_ne_true)

omit [Zero α] in
/-- An extra tensor with host content. -/
theorem memory_host (start : Memory α) {k o : ℕ} {n : ℤ}
    (h : (b.extras.getD k {}).host[o]? = some n) : b.memory K start (.extra k) o = K.ofInt n := by
  simp only [CommandBuffer.memory, Int.toNat_natCast, h]

/-- The elementwise product of tensors of one shape. -/
theorem run_mul {R : Reader α} {r₁ r₂ r : Ref} {shape : List ℕ} (h₁ : R.shape r₁ = shape)
    (h₂ : R.shape r₂ = shape) (h : R.shape r = shape) (out : ℤ → α) {o : ℕ} (ho : o < shape.prod) :
    (Command.run K op R ⟨.binary GeometryGatherND.mul, [r₁, r₂], [r]⟩ out) o =
      K.binary (R.type r₁) GeometryGatherND.mul (R.value r₁ o) (R.value r₂ o) := by
  have hread : ∀ {r'}, R.shape r' = shape → broadcastValue R r' shape o = R.value r' o := by
    intro r' hr'
    rw [broadcastValue, hr', index_pad_self ho]
  show (if (0 : ℤ) ≤ o ∧ (o : ℤ) < ((R.shape r).prod : ℕ) then
    K.binary (R.type r₁) GeometryGatherND.mul (broadcastValue R r₁ (R.shape r) o)
      (broadcastValue R r₂ (R.shape r) o) else out o) = _
  rw [h, if_pos ⟨Nat.cast_nonneg o, Nat.cast_lt.2 ho⟩, hread h₁, hread h₂]

/-- The sums of rows. -/
theorem run_reduceSum {R : Reader α} {r r' : Ref} {n d : ℕ} (h : R.shape r = [n, d])
    (out : ℤ → α) {o : ℕ} (ho : o < n) :
    (Command.run K op R ⟨.reduceSum, [r], [r']⟩ out) o =
      K.sum ((List.range d).map fun k : ℕ => R.value r (o * d + k)) := by
  show (if (0 : ℤ) ≤ o ∧ (o : ℤ) < (((R.shape r).getD 0 1 : ℕ) : ℤ) then
    K.sum ((List.range ((R.shape r).getD 1 1)).map fun k : ℕ =>
      R.value r (o * (((R.shape r).getD 1 1 : ℕ) : ℤ) + k)) else out o) = _
  rw [h]
  exact if_pos ⟨Nat.cast_nonneg o, Nat.cast_lt.2 ho⟩

/-- The raw address reference of a whole tensor. -/
theorem raster_rawAddress {value : Ref → ℤ → α} {r : Ref} {size o : ℕ} (ho : o < size) :
    raster [makeRawAddressRef r 0 size] value o = value r o := by
  have hcopies := copies_of_flat (r := makeRawAddressRef r 0 size) rfl ⟨rfl, rfl⟩ ⟨rfl, rfl⟩
  refine raster_of_agree ⟨_, List.mem_singleton_self _, o, (hcopies _ _).2 ⟨o, ho, rfl, rfl⟩⟩ ?_
  intro reg hreg s hs
  rw [List.mem_singleton.1 hreg] at hs ⊢
  obtain ⟨n, -, hn, rfl⟩ := (hcopies _ _).1 hs
  rw [Int.ofNat_inj.1 hn]
  rfl

/-- The region that repeats the strides for every row. -/
def strideRegion (r : Ref) (n d : ℕ) : Region Ref where
  src := { stride := ![0, 0, 1] }
  dst := { stride := ![d * n, d, 1] }
  size := ![1, n, d]
  origin := r

theorem raster_strideRegion {value : Ref → ℤ → α} {r : Ref} {n d i k : ℕ} (hi : i < n)
    (hk : k < d) : raster [strideRegion r n d] value ((i * d + k : ℕ) : ℤ) = value r k := by
  refine raster_of_agree ⟨_, List.mem_singleton_self _, k, ![0, i, k], fun j => ?_, ?_, ?_⟩ ?_
  · fin_cases j
    · exact ⟨le_rfl, Int.one_pos⟩
    · exact ⟨Int.natCast_nonneg i, Int.ofNat_lt.2 hi⟩
    · exact ⟨Int.natCast_nonneg k, Int.ofNat_lt.2 hk⟩
  · simp [View.address, strideRegion]
  · simp [View.address, strideRegion]
  intro reg hreg s hs
  rw [List.mem_singleton.1 hreg] at hs ⊢
  obtain ⟨j, hj, rfl, ho⟩ := hs
  have h₀ := hj 0
  have h₂ := hj 2
  simp only [strideRegion, View.address, Matrix.cons_val] at h₀ h₂ ho ⊢
  have hzero : j 0 = 0 := by omega
  rw [hzero] at ho ⊢
  have hlast : j 2 = k := by
    have h : j 2 + j 1 * d = (k : ℤ) + i * d := by
      push_cast at ho
      linarith
    have hmod := congrArg (· % (d : ℤ)) h
    simp only [Int.add_mul_emod_self_right] at hmod
    rwa [Int.emod_eq_of_lt h₂.1 h₂.2, Int.emod_eq_of_lt (Int.natCast_nonneg k)
      (Int.ofNat_lt.2 hk)] at hmod
  rw [hlast]
  congr 1
  ring

/-! ### Indices along an axis -/

/-- The positions along dimension `i`, for all elements. -/
def subIndice (shape : List ℕ) (i : ℕ) : List ℤ :=
  let outter := (shape.take i).prod
  let middle := shape.getD i 1
  let inner := (shape.drop (i + 1)).prod
  (List.range outter).flatMap fun _ => (List.range middle).flatMap fun mid : ℕ =>
    (List.range inner).map fun _ => (mid : ℤ)

example : subIndice [2, 3, 2] 1 = [0, 0, 1, 1, 2, 2, 0, 0, 1, 1, 2, 2] := by decide

theorem getD_subIndice {shape : List ℕ} {i n : ℕ} (hi : i < shape.length) (hn : n < shape.prod) :
    (subIndice shape i).getD n 0 =
      ((n / (shape.drop (i + 1)).prod % shape.getD i 1 : ℕ) : ℤ) := by
  have hsplit : shape.prod =
      (shape.take i).prod * (shape.getD i 1 * (shape.drop (i + 1)).prod) := by
    rw [List.getD_eq_getElem _ _ hi, ← List.prod_take_mul_prod_drop shape (i + 1),
      List.prod_take_succ shape i hi, Nat.mul_assoc]
  set outter := (shape.take i).prod
  set middle := shape.getD i 1
  set inner := (shape.drop (i + 1)).prod with hinner
  rw [hsplit] at hn
  have hinnerPos : 0 < inner := Nat.pos_of_ne_zero fun h => by simp [h] at hn
  have hmiddlePos : 0 < middle := Nat.pos_of_ne_zero fun h => by simp [h] at hn
  have hlen : ∀ mid : ℕ, ((List.range inner).map fun _ => (mid : ℤ)).length = inner := by simp
  have hlen' : ∀ _ : ℕ, ((List.range middle).flatMap fun mid : ℕ =>
      (List.range inner).map fun _ => (mid : ℤ)).length = middle * inner := by simp
  have hn₁ : n = middle * inner * (n / (middle * inner)) + n % (middle * inner) :=
    (Nat.div_add_mod _ _).symm
  have hn₂ : n % (middle * inner) = inner * (n / inner % middle) + n % inner := by
    rw [Nat.mul_comm middle, Nat.mod_mul, Nat.add_comm]
  have hquot : n / (middle * inner) < outter := Nat.div_lt_of_lt_mul (by rwa [Nat.mul_comm])
  rw [subIndice]
  show ((List.range outter).flatMap fun _ => (List.range middle).flatMap fun mid : ℕ =>
    (List.range inner).map fun _ => (mid : ℤ)).getD n 0 = _
  rw [hn₁, Lib.getD_flatMap_range hlen' hquot (Nat.mod_lt _ (Nat.mul_pos hmiddlePos hinnerPos)),
    hn₂, Lib.getD_flatMap_range hlen (Nat.mod_lt _ hmiddlePos) (Nat.mod_lt _ hinnerPos),
    List.getD_eq_getElem _ _ (by rw [hlen]; exact Nat.mod_lt _ hinnerPos), List.getElem_map,
    ← hn₂, ← hn₁]

/-- Row `n` of the new indices is the position of element `n`, on the axis its index. -/
def reindexRegion (flattenIndice : Ref) (axis d n i : ℕ) : Region Ref where
  dst := { offset := i, stride := ![1, 1, d] }
  size := ![1, 1, n]
  origin := if i = axis then flattenIndice else .const i

/-- The constants of `reindexRegion`; there is none for the axis. -/
def reindexConsts (shape : List ℕ) (axis d : ℕ) : List (List ℤ) :=
  (List.range d).map fun i => if i = axis then [] else subIndice shape i

theorem raster_reindex {value : Ref → ℤ → α} {flattenIndice : Ref} {axis d n m i : ℕ} (hm : m < n)
    (hi : i < d) :
    raster ((List.range d).map (reindexRegion flattenIndice axis d n)) value
      ((m * d + i : ℕ) : ℤ) = value (if i = axis then flattenIndice else .const i) m := by
  refine raster_of_agree ⟨_, List.mem_map_of_mem (List.mem_range.2 hi), m, ![0, 0, m],
    fun j => ?_, ?_, ?_⟩ ?_
  · fin_cases j
    · exact ⟨le_rfl, Int.one_pos⟩
    · exact ⟨le_rfl, Int.one_pos⟩
    · exact ⟨Int.natCast_nonneg m, Int.ofNat_lt.2 hm⟩
  · simp [View.address, reindexRegion]
  · simp [View.address, reindexRegion, add_comm]
  intro reg hreg s hs
  obtain ⟨i', hi', rfl⟩ := List.mem_map.1 hreg
  obtain ⟨j, hj, rfl, ho⟩ := hs
  have hi' := List.mem_range.1 hi'
  have h₀ := hj 0
  have h₁ := hj 1
  have h₂ := hj 2
  simp only [reindexRegion, View.address, Matrix.cons_val] at h₀ h₁ h₂ ho ⊢
  have hzero₀ : j 0 = 0 := by omega
  have hzero₁ : j 1 = 0 := by omega
  rw [hzero₀, hzero₁] at ho ⊢
  obtain ⟨k, hk⟩ := Int.eq_ofNat_of_zero_le h₂.1
  rw [hk] at ho ⊢
  have hnat : k * d + i' = m * d + i := by
    have : (k : ℤ) * d + i' = m * d + i := by push_cast at ho; linarith
    exact_mod_cast this
  have hmod := congrArg (· % d) hnat
  simp only [Nat.mul_add_mod_of_lt hi, Nat.mul_add_mod_of_lt hi'] at hmod
  subst hmod
  obtain rfl : k = m :=
    Nat.eq_of_mul_eq_mul_right (Nat.zero_lt_of_lt hi) (Nat.add_right_cancel hnat)
  congr 1
  ring

/-- `flattenIndice`. -/
def flattenIndice (n : ℕ) : Tensor :=
  { GeometryGatherND.intTensor [n] with
    virtual := true
    regions := [makeRawAddressRef (.input 1) 0 n] }

/-- `newIndice`. -/
def newIndice (flattenIndice : Ref) (axis d n : ℕ) : Tensor :=
  { GeometryGatherND.intTensor [n, d] with
    virtual := true
    regions := (List.range d).map (reindexRegion flattenIndice axis d n) }

/-- The entries of `newIndice`. -/
def rowEntry (shape : List ℕ) (axis : ℕ) (indices : ℤ → ℕ) (o : ℤ) : ℕ :=
  let n := o.toNat / shape.length
  let i := o.toNat % shape.length
  if i = axis then indices n else n / (shape.drop (i + 1)).prod % shape.getD i 1

theorem rowEntry_row {shape : List ℕ} {i : ℕ} (axis : ℕ) (indices : ℤ → ℕ) (hi : i < shape.length)
    (n : ℕ) : rowEntry shape axis indices ((n * shape.length + i : ℕ) : ℤ) =
      if i = axis then indices n else n / (shape.drop (i + 1)).prod % shape.getD i 1 := by
  have hdiv : (n * shape.length + i) / shape.length = n := by
    rw [Nat.mul_comm, Nat.mul_add_div (Nat.zero_lt_of_lt hi), Nat.div_eq_of_lt hi, Nat.add_zero]
  rw [rowEntry, Int.toNat_natCast, hdiv, Nat.mul_add_mod_of_lt hi]

/-- The row of a position is the position with its index on the axis. -/
theorem tuple_rowEntry {shape p : List ℕ} {axis n : ℕ} {indices : ℤ → ℕ} (hp : p ∈ coords shape)
    (hn : address (steps shape) p = n) :
    tuple (rowEntry shape axis indices) shape.length n = p.set axis (indices n) := by
  have hlen := length_of_mem_coords hp
  rw [tuple]
  refine List.ext_getElem (by simp [hlen]) fun i hi hi' => ?_
  have hi : i < shape.length := by simpa using hi
  rw [List.getElem_map, List.getElem_range, List.getElem_set]
  have hrow := rowEntry_row axis indices hi n
  push_cast at hrow
  rw [hrow]
  by_cases h : i = axis
  · rw [if_pos h, if_pos h.symm]
  · rw [if_neg h, if_neg (Ne.symm h), coord_eq hp hn (by omega)]

theorem read_newIndice {f q axis n : ℕ} {shape : List ℕ} {indices : ℤ → ℕ} {start : Memory α}
    (hflat : b.extras.getD f {} = flattenIndice n)
    (hnew : b.extras.getD q {} = newIndice (.extra f) axis shape.length n)
    (hconsts : b.consts = reindexConsts shape axis shape.length) (hshape : shape.prod = n)
    (hstart : ∀ o, start (.input 1) o = K.ofInt (indices o)) {depth o : ℕ}
    (ho : o < n * shape.length) :
    read inputs output b (b.memory K start) (depth + 2) (.extra q) o =
      K.ofInt (rowEntry shape axis indices o) := by
  have hpos : 0 < shape.length := Nat.pos_of_ne_zero fun h => by
    rw [h, Nat.mul_zero] at ho
    exact Nat.not_lt_zero o ho
  have hm : o / shape.length < n := Nat.div_lt_of_lt_mul (by rwa [Nat.mul_comm])
  have hi := Nat.mod_lt o hpos
  rw [← Nat.div_add_mod' o shape.length, read_virtual (by rw [hnew]; rfl), hnew, rowEntry_row _ _ hi]
  refine (raster_reindex hm hi).trans ?_
  by_cases haxis : o % shape.length = axis
  · rw [if_pos haxis, if_pos haxis, read_virtual (by rw [hflat]; rfl), hflat]
    refine (raster_rawAddress hm).trans ?_
    rw [read_input]
    exact hstart _
  · rw [if_neg haxis, if_neg haxis]
    show K.ofInt ((b.consts.getD (o % shape.length) []).getD (o / shape.length) 0) = _
    have hconst : b.consts.getD (o % shape.length) [] = subIndice shape (o % shape.length) := by
      rw [hconsts, reindexConsts, List.getD_eq_getElem _ _ (by simpa using hi), List.getElem_map,
        List.getElem_range, if_neg haxis]
    rw [hconst, getD_subIndice hi (hshape.symm ▸ hm)]

/-- The tensors of the two commands: `r₁` holds the rows, `r₂` the strides of every row. -/
structure RowTensors (K : Kernels α) (inputs : List Tensor) (output : Tensor) (b : CommandBuffer)
    (start : Memory α) (r₁ r₂ : Ref) (m : ℕ) (indices : ℤ → ℕ) (strides : List ℤ) (n d : ℕ) :
    Prop where
  shape₁ : (tensorAt inputs output b r₁).shape = [n, d]
  shape₂ : (tensorAt inputs output b r₂).shape = [n, d]
  type₁ : (tensorAt inputs output b r₁).type = ⟨0, 32⟩
  product : b.extras.getD m {} = GeometryGatherND.intTensor [n, d]
  rows : ∀ o : ℕ, o < n * d →
    read inputs output b (b.memory K start) b.depth r₁ o = K.ofInt (indices o)
  strides : ∀ i < n, ∀ k < d,
    read inputs output b (b.memory K start) b.depth r₂ ((i * d + k : ℕ) : ℤ) =
      K.ofInt (strides.getD k 0)

/-- The tensors as geometry makes them: the strides are constants, the rows those of `rows`. -/
theorem rowTensors_of_extras {start : Memory α} {rows : Ref} {c k₁ k₂ m n d : ℕ} {indices : ℤ → ℕ}
    {strides : List ℤ}
    (hconst : b.extras.getD c {} = { GeometryGatherND.intTensor [d] with host := strides })
    (h₁ : b.extras.getD k₁ {} = { GeometryGatherND.intTensor [n, d] with
      virtual := true, regions := [makeRawAddressRef rows 0 (n * d)] })
    (h₂ : b.extras.getD k₂ {} = { GeometryGatherND.intTensor [n, d] with
      virtual := true, regions := [strideRegion (.extra c) n d] })
    (hm : b.extras.getD m {} = GeometryGatherND.intTensor [n, d]) (hlen : strides.length = d)
    (hrows : ∀ o : ℕ, o < n * d →
      read inputs output b (b.memory K start) (b.depth - 1) rows o = K.ofInt (indices o)) :
    RowTensors K inputs output b start (.extra k₁) (.extra k₂) m indices strides n d := by
  have hdepth : b.depth = b.depth - 1 + 1 := rfl
  refine ⟨?_, ?_, ?_, hm, fun o ho => ?_, fun i hi k hk => ?_⟩
  · rw [tensorAt_extra, h₁]
    rfl
  · rw [tensorAt_extra, h₂]
    rfl
  · rw [tensorAt_extra, h₁]
    rfl
  · rw [hdepth, read_virtual (by rw [h₁]), h₁]
    exact (raster_rawAddress ho).trans (hrows o ho)
  · rw [hdepth, read_virtual (by rw [h₂]), h₂]
    refine (raster_strideRegion hi hk).trans ?_
    have hhost : (b.extras.getD c {}).host[k]? = some (strides.getD k 0) := by
      rw [hconst, List.getElem?_eq_getElem (hlen ▸ hk), List.getD_eq_getElem _ _ (hlen ▸ hk)]
    rw [read_plain (by rw [hconst]; rfl), memory_host start hhost]

/-- **The two commands leave the address of every row.** -/
theorem runCommands_rows (op : Op) {bound : ℤ} (hK : K.Exact bound) {start : Memory α}
    {r₁ r₂ : Ref} {m s : ℕ}
    {indices : ℤ → ℕ} {strides : List ℤ} {n d : ℕ}
    (h : RowTensors K inputs output b start r₁ r₂ m indices strides n d)
    (hlen : strides.length = d) (hnonneg : ∀ x ∈ strides, 0 ≤ x)
    (hbound : ∀ i < n, address strides (tuple indices d i) < bound) {rest : List Command}
    (hb : b.command = ⟨.binary GeometryGatherND.mul, [r₁, r₂], [.extra m]⟩ ::
      ⟨.reduceSum, [.extra m], [.extra s]⟩ :: rest) :
    ∃ M : Memory α,
      (runCommands K op inputs output b start = rest.foldl (fun memory c =>
        Function.update memory (c.outputs.getD 0 .output) (c.run K op
          (reader inputs output b memory) (memory (c.outputs.getD 0 .output)))) M) ∧
      (∀ r, r ≠ .extra m → r ≠ .extra s → M r = b.memory K start r) ∧
      ∀ i < n, M (.extra s) i = K.ofInt (address strides (tuple indices d i)) := by
  let M₀ := b.memory K start
  let R₀ := reader inputs output b M₀
  let M₁ := Function.update M₀ (.extra m) (Command.run K op R₀
    ⟨.binary GeometryGatherND.mul, [r₁, r₂], [.extra m]⟩ (M₀ (.extra m)))
  let R₁ := reader inputs output b M₁
  let M₂ := Function.update M₁ (.extra s) (Command.run K op R₁
    ⟨.reduceSum, [.extra m], [.extra s]⟩ (M₁ (.extra s)))
  have hproduct : ∀ i < n, ∀ k < d, M₁ (.extra m) ((i * d + k : ℕ) : ℤ) =
      K.ofInt ((indices ((i * d + k : ℕ) : ℤ) : ℤ) * strides.getD k 0) := by
    intro i hi k hk
    have ho : i * d + k < n * d := by
      calc i * d + k < (i + 1) * d := by rw [Nat.succ_mul]; omega
        _ ≤ n * d := Nat.mul_le_mul_right d hi
    have hmem : (indices ((i * d + k : ℕ) : ℤ) : ℤ) * strides.getD k 0 ∈
        products indices strides d i :=
      List.mem_map.2 ⟨k, List.mem_range.2 hk, by push_cast; rfl⟩
    have hle := List.single_le_sum (products_nonneg indices hnonneg d i) _ hmem
    rw [sum_products indices hlen] at hle
    have hstride : 0 ≤ strides.getD k 0 := by
      rw [List.getD_eq_getElem _ _ (hlen ▸ hk)]
      exact hnonneg _ (List.getElem_mem (hlen ▸ hk))
    have hshape : R₀.shape (.extra m) = [n, d] := by
      show (b.extras.getD m {}).shape = _
      rw [h.product]
      rfl
    show Function.update M₀ _ _ (.extra m) _ = _
    rw [Function.update_self, run_mul h.shape₁ h.shape₂ hshape _ (by simpa using ho)]
    show K.binary (tensorAt inputs output b r₁).type _ _ _ = _
    rw [h.type₁, ← hK.mul _ _ (Nat.cast_nonneg _) hstride (hle.trans_lt (hbound i hi))]
    exact congrArg₂ _ (h.rows _ ho) (h.strides i hi k hk)
  refine ⟨M₂, ?_, ?_, ?_⟩
  · rw [runCommands, hb]
    rfl
  · intro r hm hs
    exact (Function.update_of_ne hs _ _).trans (Function.update_of_ne hm _ _)
  · intro i hi
    have hshape : R₁.shape (.extra m) = [n, d] := by
      show (b.extras.getD m {}).shape = _
      rw [h.product]
      rfl
    have hread : ∀ o, R₁.value (.extra m) o = M₁ (.extra m) o :=
      fun o => congrFun (read_plain (by rw [h.product]; rfl) M₁ _) o
    show Function.update M₁ _ _ (.extra s) _ = _
    rw [Function.update_self, run_reduceSum hshape _ hi]
    have hmap : ((List.range d).map fun k : ℕ => R₁.value (.extra m) ((i : ℤ) * d + k)) =
        (products indices strides d i).map K.ofInt := by
      rw [products, List.map_map]
      refine List.map_congr_left fun k hk => ?_
      have hk := hproduct i hi k (List.mem_range.1 hk)
      push_cast at hk
      rw [hread, hk]
      rfl
    rw [hmap, hK.sum _ (products_nonneg indices hnonneg d i) (by
      rw [sum_products indices hlen]; exact hbound i hi), sum_products indices hlen]

end Commands

end Mnn.Recompute
