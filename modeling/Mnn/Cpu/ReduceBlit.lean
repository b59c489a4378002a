import Mnn.Cpu.Blit

/-!
# Sums over a region

Where the destination of a region stands still along an axis, `_reduceblit`
(`source/backend/cpu/CPURaster.cpp`) adds the elements along that axis up.  Elements of two bytes
are widened into a buffer first: one element where two or three axes are reduced, and as many as the
axis is long where one is.

* `reduceIndex`, `normalIndex`: the axes as `ReduceInfo` sorts them;
* `widen`, `floats`, `reduceblit`: the code, over a source that may be read at some addresses only;
* `sums`: what a reduction should write; `memory`: a source that holds the range of the region;
* `ScratchFits`: the strides for which the buffer holds what is added;
* `reducesRight_iff`: **the sums are right, and no address or index is out of bounds, exactly when
  the elements have four bytes, the region is empty or `ScratchFits` holds**.

The additions are those of an arbitrary commutative monoid.
-/

namespace Mnn.CPURaster

/-- The bytes of an element that can be added to others. -/
inductive FloatBytes
  | two | four
  deriving DecidableEq

variable {τ : Type*}

/-- The axes that `ReduceInfo::reduceMask` marks. -/
def Reduced (slice : Region τ) (i : Fin 3) : Prop := 1 < slice.size i ∧ slice.dst.stride i = 0

instance (slice : Region τ) (i : Fin 3) : Decidable (Reduced slice i) :=
  inferInstanceAs (Decidable (_ ∧ _))

/-- `ReduceInfo::reduceIndex`. -/
def reduceIndex (slice : Region τ) : List (Fin 3) :=
  [0, 1, 2].filter fun i => decide (Reduced slice i)

/-- `ReduceInfo::normalIndex`. -/
def normalIndex (slice : Region τ) : List (Fin 3) :=
  [0, 1, 2].filter fun i => !decide (Reduced slice i)

variable {E M : Type*} [AddCommMonoid M] (toFp32 : E → M) (toLowp : M → E)

/-- `funcFp16ToFp32`, into a buffer of `size` elements. -/
def widen (src : ℤ → Option E) (srcY size : ℤ) : Option (List M) :=
  (List.range size.toNat).mapM fun i : ℕ => (src (srcY + i)).map toFp32

/-- An element of a buffer. -/
def element (fp32Buffer : List M) (i : ℤ) : Option M :=
  if 0 ≤ i then fp32Buffer[i.toNat]? else none

/-- `S`: the source behind `srcY`, or a buffer with its first `size` elements. -/
def floats (bytes : FloatBytes) (src : ℤ → Option E) (srcY size : ℤ) : Option (ℤ → Option M) :=
  match bytes with
  | .four => some fun i => (src (srcY + i)).map toFp32
  | .two => (widen toFp32 src srcY size).map element

/-- The loop over `x` that fills the buffer in every round. -/
def addEach (bytes : FloatBytes) (src : ℤ → Option E) (srcY stride size : ℤ) (summer : M) :
    Option M :=
  (List.range size.toNat).foldlM (fun summer (x : ℕ) => do
    let S ← floats toFp32 bytes src srcY 1
    (S (stride * x)).map (summer + ·)) summer

/-- The loop over `x` behind a buffer that is filled once. -/
def addRow (bytes : FloatBytes) (src : ℤ → Option E) (srcY stride size : ℤ) : Option M := do
  let S ← floats toFp32 bytes src srcY size
  (List.range size.toNat).foldlM (fun summer (x : ℕ) => (S (stride * x)).map (summer + ·)) 0

/-- `_reduceblit`: what it returns, and the elements that it writes. -/
def reduceblit (bytes : FloatBytes) (slice : Region τ) (src : ℤ → Option E) :
    Option (Bool × List (ℤ × E)) :=
  let stride := slice.src.stride
  match reduceIndex slice, normalIndex slice with
  | [_, _, _], _ =>
    let summer := (List.range (slice.size 0).toNat).foldlM (fun summer (z : ℕ) =>
      (List.range (slice.size 1).toNat).foldlM (fun summer (y : ℕ) =>
        addEach toFp32 bytes src (slice.src.offset + z * stride 0 + y * stride 1) (stride 2)
          (slice.size 2) summer) summer) 0
    summer.map fun summer => (true, [(slice.dst.offset, toLowp summer)])
  | [r₀, r₁], n₀ :: _ =>
    let w := (List.range (slice.size n₀).toNat).mapM fun z : ℕ =>
      let summer := (List.range (slice.size r₀).toNat).foldlM (fun summer (y : ℕ) =>
        addEach toFp32 bytes src (slice.src.offset + z * stride n₀ + y * stride r₀) (stride r₁)
          (slice.size r₁) summer) 0
      summer.map fun summer => (slice.dst.offset + z * slice.dst.stride n₀, toLowp summer)
    w.map (true, ·)
  | [r₀], n₀ :: n₁ :: _ =>
    let w := (List.range (slice.size n₀).toNat).mapM fun z : ℕ =>
      (List.range (slice.size n₁).toNat).mapM fun y : ℕ =>
        let summer := addRow toFp32 bytes src
          (slice.src.offset + z * stride n₀ + y * stride n₁) (stride r₀) (slice.size r₀)
        summer.map fun summer =>
          (slice.dst.offset + z * slice.dst.stride n₀ + y * slice.dst.stride n₁, toLowp summer)
    w.map fun w => (true, w.flatten)
  | _, _ => some (false, [])

/-! ### What a reduction is for -/

/-- The indices that agree on the axes that are kept. -/
def SameKept (slice : Region τ) (p i : Fin 3 → ℤ) : Prop := ∀ k, ¬ Reduced slice k → i k = p k

instance (slice : Region τ) (p i : Fin 3 → ℤ) : Decidable (SameKept slice p i) :=
  inferInstanceAs (Decidable (∀ _, _))

/-- The indices of the destination: one for all that agree on the axes that are kept. -/
def kept (slice : Region τ) : List (Fin 3 → ℤ) :=
  (boxIndices slice.size).filter fun p => decide (∀ k, Reduced slice k → p k = 0)

/-- The sum of the source elements at the same kept coordinates. -/
def sumAt (slice : Region τ) (value : ℤ → E) (p : Fin 3 → ℤ) : M :=
  (((boxIndices slice.size).filter fun i => decide (SameKept slice p i)).map fun i =>
    toFp32 (value (slice.src.address i))).sum

/-- Every destination element with its sum. -/
def sums (slice : Region τ) (value : ℤ → E) : List (ℤ × E) :=
  (kept slice).map fun p => (slice.dst.address p, toLowp (sumAt toFp32 slice value p))

/-- The addresses between the lowest and the highest that the region reads. -/
def InRange (slice : Region τ) (a : ℤ) : Prop :=
  ∃ i ∈ boxIndices slice.size, ∃ j ∈ boxIndices slice.size,
    slice.src.address i ≤ a ∧ a ≤ slice.src.address j

instance (slice : Region τ) (a : ℤ) : Decidable (InRange slice a) :=
  inferInstanceAs (Decidable (∃ _ ∈ _, _))

/-- A source with nothing outside the range of the region. -/
def memory (slice : Region τ) (value : ℤ → E) (a : ℤ) : Option E :=
  if InRange slice a then some (value a) else none

/-- Every destination element gets its sum, whatever the source holds, and nothing out of bounds is
used for it. -/
def ReducesRight (bytes : FloatBytes) (slice : Region τ) : Prop :=
  ∀ value : ℤ → E, ∃ w, reduceblit toFp32 toLowp bytes slice (memory slice value) = some (true, w) ∧
    w.Perm (sums toFp32 toLowp slice value)

/-- The steps of the innermost axis that the buffer allows. -/
def ScratchFits (slice : Region τ) : Prop :=
  match reduceIndex slice with
  | [r] => slice.src.stride r = 1
  | [_, r] | [_, _, r] => slice.src.stride r = 0
  | _ => True

/-! ### Kept and reduced coordinates -/

/-- The box of the axes that are kept. -/
def keptSize (slice : Region τ) (k : Fin 3) : ℤ := if Reduced slice k then 1 else slice.size k

/-- The box of the axes that are reduced. -/
def reducedSize (slice : Region τ) (k : Fin 3) : ℤ := if Reduced slice k then slice.size k else 1

variable {slice : Region τ}

theorem mem_kept {p : Fin 3 → ℤ} :
    p ∈ kept slice ↔ InBox slice.size p ∧ ∀ k, Reduced slice k → p k = 0 := by
  rw [kept, List.mem_filter, mem_boxIndices, decide_eq_true_iff]

theorem kept_perm (slice : Region τ) : (kept slice).Perm (boxIndices (keptSize slice)) := by
  refine (List.perm_ext_iff_of_nodup ((nodup_boxIndices _).filter _) (nodup_boxIndices _)).2
    fun p => ?_
  have hk : ∀ k, (0 ≤ p k ∧ p k < keptSize slice k) ↔
      ((0 ≤ p k ∧ p k < slice.size k) ∧ (Reduced slice k → p k = 0)) := by
    intro k
    unfold keptSize
    by_cases hr : Reduced slice k
    · have := hr.1
      rw [if_pos hr]
      simp only [hr, forall_const]
      omega
    · rw [if_neg hr]
      simp only [hr, false_imp_iff, and_true]
  exact mem_kept.trans
    (forall_and.symm.trans ((forall_congr' fun k => (hk k).symm).trans mem_boxIndices.symm))

/-- The indices at the same kept coordinates are the sums with the indices of the reduced axes. -/
theorem same_perm {p : Fin 3 → ℤ} (hp : p ∈ kept slice) :
    ((boxIndices slice.size).filter fun i => decide (SameKept slice p i)).Perm
      ((boxIndices (reducedSize slice)).map (p + ·)) := by
  obtain ⟨hbox, hzero⟩ := mem_kept.1 hp
  refine (List.perm_ext_iff_of_nodup ((nodup_boxIndices _).filter _)
    ((nodup_boxIndices _).map (add_right_injective p))).2 fun i => ?_
  rw [List.mem_filter, mem_boxIndices, decide_eq_true_iff, List.mem_map]
  constructor
  · rintro ⟨hi, hsame⟩
    refine ⟨i - p, mem_boxIndices.2 fun k => ?_, add_sub_cancel p i⟩
    have hik := hi k
    unfold reducedSize
    split_ifs with hr
    · rw [Pi.sub_apply, hzero k hr, sub_zero]
      exact hik
    · rw [Pi.sub_apply, hsame k hr, sub_self]
      exact ⟨le_rfl, one_pos⟩
  · rintro ⟨q, hq, rfl⟩
    have hqk : ∀ k, ¬ Reduced slice k → q k = 0 := by
      intro k hr
      have := mem_boxIndices.1 hq k
      rw [reducedSize, if_neg hr] at this
      omega
    refine ⟨fun k => ?_, fun k hr => by rw [Pi.add_apply, hqk k hr, add_zero]⟩
    have hk := hbox k
    by_cases hr : Reduced slice k
    · have := mem_boxIndices.1 hq k
      rw [reducedSize, if_pos hr] at this
      rw [Pi.add_apply, hzero k hr, zero_add]
      exact this
    · rw [Pi.add_apply, hqk k hr, add_zero]
      exact hk

theorem entries_add (a b : Fin 3) (z i j z' i' j' : ℤ) :
    entries a b z i j + entries a b z' i' j' = entries a b (z + z') (i + i') (j + j') := by
  funext k
  simp only [Pi.add_apply, entries]
  split_ifs <;> rfl

section Order

variable {a b c : Fin 3} (hab : a ≠ b) (hac : a ≠ c) (hbc : b ≠ c)
include hab hac hbc

/-- A sum is one over three loops, whatever their order. -/
theorem sumAt_eq (value : ℤ → E) {p : Fin 3 → ℤ} (hp : p ∈ kept slice) :
    sumAt toFp32 slice value p = ((List.range (reducedSize slice a).toNat).flatMap fun z : ℕ =>
      (List.range (reducedSize slice b).toNat).flatMap fun i : ℕ =>
        (List.range (reducedSize slice c).toNat).map fun j : ℕ =>
          toFp32 (value (slice.src.address (p + entries a b z i j)))).sum := by
  have hperm := (same_perm hp).trans ((perm_boxIndices hab hac hbc (reducedSize slice)).map
    (p + ·)).symm
  rw [sumAt, (hperm.map fun i => toFp32 (value (slice.src.address i))).sum_eq]
  simp only [List.map_flatMap, List.map_map, Function.comp_def]

theorem sums_perm (value : ℤ → E) :
    ((List.range (keptSize slice a).toNat).flatMap fun z : ℕ =>
      (List.range (keptSize slice b).toNat).flatMap fun i : ℕ =>
        (List.range (keptSize slice c).toNat).map fun j : ℕ =>
          (slice.dst.address (entries a b z i j),
            toLowp (sumAt toFp32 slice value (entries a b z i j)))).Perm
      (sums toFp32 toLowp slice value) := by
  have hperm := (perm_boxIndices hab hac hbc (keptSize slice)).trans (kept_perm slice).symm
  refine (List.Perm.of_eq ?_).trans
    (hperm.map fun p => (slice.dst.address p, toLowp (sumAt toFp32 slice value p)))
  simp only [List.map_flatMap, List.map_map, Function.comp_def]

theorem mem_boxIndices_entries {size : Fin 3 → ℤ} {z i j : ℕ} (hz : z < size a) (hi : i < size b)
    (hj : j < size c) : entries a b z i j ∈ boxIndices size := by
  refine (perm_boxIndices hab hac hbc size).mem_iff.1 ?_
  simp only [List.mem_flatMap, List.mem_map, List.mem_range]
  exact ⟨z, by omega, i, by omega, j, by omega, rfl⟩

theorem exists_entries {size p : Fin 3 → ℤ} (hp : p ∈ boxIndices size) :
    ∃ z i j : ℕ, z < size a ∧ i < size b ∧ j < size c ∧ p = entries a b z i j := by
  have hmem := (perm_boxIndices hab hac hbc size).mem_iff.2 hp
  simp only [List.mem_flatMap, List.mem_map, List.mem_range] at hmem
  obtain ⟨z, hz, i, hi, j, hj, rfl⟩ := hmem
  exact ⟨z, i, j, by omega, by omega, by omega, rfl⟩

end Order

/-! ### The inner loops -/

theorem memory_address (value : ℤ → E) {i : Fin 3 → ℤ} (hi : i ∈ boxIndices slice.size) :
    memory slice value (slice.src.address i) = some (value (slice.src.address i)) :=
  if_pos ⟨i, hi, i, hi, le_rfl, le_rfl⟩

theorem addEach_eq {bytes : FloatBytes} {src : ℤ → Option E} {value : ℤ → E} {srcY stride size : ℤ}
    (hsrc : ∀ x : ℕ, x < size → src (srcY + stride * x) = some (value (srcY + stride * x)))
    (hstride : bytes = .two → stride = 0) (summer : M) :
    addEach toFp32 bytes src srcY stride size summer = some (summer +
      ((List.range size.toNat).map fun x : ℕ => toFp32 (value (srcY + stride * x))).sum) := by
  refine Lib.foldlM_eq_add (fun x hx s => ?_) summer
  have hmem := hsrc x (by have := List.mem_range.1 hx; omega)
  cases bytes with
  | four => simp [floats, hmem]
  | two =>
    rw [hstride rfl, zero_mul, add_zero] at hmem
    simp [floats, widen, element, hmem, hstride rfl]

theorem addRow_eq {bytes : FloatBytes} {src : ℤ → Option E} {value : ℤ → E} {srcY stride size : ℤ}
    (hsrc : ∀ x : ℕ, x < size → src (srcY + stride * x) = some (value (srcY + stride * x)))
    (hstride : bytes = .two → stride = 1) :
    addRow toFp32 bytes src srcY stride size =
      some ((List.range size.toNat).map fun x : ℕ => toFp32 (value (srcY + stride * x))).sum := by
  have hloop : ∀ S : ℤ → Option M,
      (∀ x : ℕ, x < size → S (stride * x) = some (toFp32 (value (srcY + stride * x)))) →
      (List.range size.toNat).foldlM (fun summer (x : ℕ) => (S (stride * x)).map (summer + ·)) 0 =
        some ((List.range size.toNat).map fun x : ℕ =>
          toFp32 (value (srcY + stride * x))).sum := by
    intro S hS
    rw [Lib.foldlM_eq_add (fun x hx s => ?_) 0, zero_add]
    rw [hS x (by have := List.mem_range.1 hx; omega)]
    rfl
  cases bytes with
  | four =>
    refine hloop (fun i => (src (srcY + i)).map toFp32) fun x hx => ?_
    rw [hsrc x hx]
    rfl
  | two =>
    have hone := hstride rfl
    subst hone
    have hwiden : widen toFp32 src srcY size =
        some ((List.range size.toNat).map fun x : ℕ => toFp32 (value (srcY + 1 * x))) := by
      refine Lib.mapM_eq_some fun x hx => ?_
      have := hsrc x (by have := List.mem_range.1 hx; omega)
      rw [one_mul] at this ⊢
      rw [this]
      rfl
    rw [addRow, floats, hwiden]
    refine hloop (element _) fun x hx => ?_
    have hlt : x < size.toNat := by omega
    simp [element, hlt]

/-! ### The cases -/

/-- The axes are sorted in one of three ways. -/
theorem sorted (h : reduceIndex slice ≠ []) :
    (reduceIndex slice = [0, 1, 2] ∧ normalIndex slice = [] ∧ ∀ k, Reduced slice k) ∨
      (∃ a b c, a ≠ b ∧ a ≠ c ∧ b ≠ c ∧ reduceIndex slice = [b, c] ∧ normalIndex slice = [a] ∧
        ¬ Reduced slice a ∧ Reduced slice b ∧ Reduced slice c) ∨
      ∃ a b c, a ≠ b ∧ a ≠ c ∧ b ≠ c ∧ reduceIndex slice = [c] ∧ normalIndex slice = [a, b] ∧
        ¬ Reduced slice a ∧ ¬ Reduced slice b ∧ Reduced slice c := by
  have hsome : Reduced slice 0 ∨ Reduced slice 1 ∨ Reduced slice 2 := by
    by_contra hnone
    push Not at hnone
    exact h (by simp [reduceIndex, hnone])
  by_cases h₀ : Reduced slice 0 <;> by_cases h₁ : Reduced slice 1 <;>
    by_cases h₂ : Reduced slice 2 <;>
    simp [reduceIndex, normalIndex, h₀, h₁, h₂, Fin.forall_fin_succ, Fin.exists_fin_succ] at hsome ⊢

theorem pos_of_reduced {k : Fin 3} (h : Reduced slice k) : 1 ≤ slice.size k := by
  have := h.1
  omega

section Rows

variable {a b c : Fin 3} (hab : a ≠ b) (hac : a ≠ c) (hbc : b ≠ c)
include hab hac hbc

theorem memory_row (value : ℤ → E) {z y x : ℕ} (hz : z < slice.size a) (hy : y < slice.size b)
    (hx : x < slice.size c) :
    memory slice value (slice.src.offset + z * slice.src.stride a + y * slice.src.stride b +
        slice.src.stride c * x) =
      some (value (slice.src.offset + z * slice.src.stride a + y * slice.src.stride b +
        slice.src.stride c * x)) := by
  have h := memory_address value (mem_boxIndices_entries hab hac hbc hz hy hx)
  rw [address_entries hab hac hbc] at h
  rw [mul_comm (slice.src.stride c)]
  exact h

/-- The rounds of `y` and `x` with the buffer filled in every round. -/
theorem addRows_eq {bytes : FloatBytes} (hstride : bytes = .two → slice.src.stride c = 0)
    (value : ℤ → E) {z : ℕ} (hz : z < slice.size a) (summer : M) :
    (List.range (slice.size b).toNat).foldlM (fun summer (y : ℕ) =>
        addEach toFp32 bytes (memory slice value)
          (slice.src.offset + z * slice.src.stride a + y * slice.src.stride b)
          (slice.src.stride c) (slice.size c) summer) summer =
      some (summer + ((List.range (slice.size b).toNat).map fun y : ℕ =>
        ((List.range (slice.size c).toNat).map fun x : ℕ =>
          toFp32 (value (slice.src.offset + z * slice.src.stride a + y * slice.src.stride b +
            slice.src.stride c * x))).sum).sum) := by
  refine Lib.foldlM_eq_add (fun y hy s => ?_) summer
  have hlt := List.mem_range.1 hy
  exact addEach_eq toFp32 (fun x hx => memory_row hab hac hbc value hz (by omega) hx) hstride s

theorem sumAt_entries (value : ℤ → E) {z y x : ℕ} (hz : z < keptSize slice a)
    (hy : y < keptSize slice b) (hx : x < keptSize slice c) :
    sumAt toFp32 slice value (entries a b z y x) =
      ((List.range (reducedSize slice a).toNat).map fun z' : ℕ =>
        ((List.range (reducedSize slice b).toNat).map fun y' : ℕ =>
          ((List.range (reducedSize slice c).toNat).map fun x' : ℕ =>
            toFp32 (value (slice.src.offset + (z + z') * slice.src.stride a +
              (y + y') * slice.src.stride b + slice.src.stride c * (x + x')))).sum).sum).sum := by
  have hp := (kept_perm slice).mem_iff.2 (mem_boxIndices_entries hab hac hbc hz hy hx)
  rw [sumAt_eq toFp32 hab hac hbc value hp]
  simp only [Lib.sum_flatMap, entries_add, address_entries hab hac hbc,
    mul_comm (slice.src.stride c)]

/-- Two axes are reduced. -/
theorem sums_two (ha : ¬ Reduced slice a) (hb : Reduced slice b) (hc : Reduced slice c)
    (value : ℤ → E) :
    ((List.range (slice.size a).toNat).map fun z : ℕ =>
      (slice.dst.offset + z * slice.dst.stride a,
        toLowp ((List.range (slice.size b).toNat).map fun y : ℕ =>
          ((List.range (slice.size c).toNat).map fun x : ℕ =>
            toFp32 (value (slice.src.offset + z * slice.src.stride a + y * slice.src.stride b +
              slice.src.stride c * x))).sum).sum)).Perm
      (sums toFp32 toLowp slice value) := by
  have hka : keptSize slice a = slice.size a := if_neg ha
  have hkb : keptSize slice b = 1 := if_pos hb
  have hkc : keptSize slice c = 1 := if_pos hc
  refine (List.Perm.of_eq ?_).trans (sums_perm toFp32 toLowp hab hac hbc value)
  simp only [hka, hkb, hkc, Int.toNat_one, List.range_one, List.map_cons, List.map_nil,
    List.flatMap_singleton]
  rw [List.map_eq_flatMap]
  refine List.flatMap_congr fun z hz => ?_
  have hlt := List.mem_range.1 hz
  rw [sumAt_entries toFp32 hab hac hbc value (by omega) (by omega) (by omega),
    address_entries hab hac hbc]
  simp [reducedSize, if_neg ha, if_pos hb, if_pos hc]

/-- One axis is reduced. -/
theorem sums_one (ha : ¬ Reduced slice a) (hb : ¬ Reduced slice b) (hc : Reduced slice c)
    (value : ℤ → E) :
    ((List.range (slice.size a).toNat).flatMap fun z : ℕ =>
      (List.range (slice.size b).toNat).map fun y : ℕ =>
        (slice.dst.offset + z * slice.dst.stride a + y * slice.dst.stride b,
          toLowp ((List.range (slice.size c).toNat).map fun x : ℕ =>
            toFp32 (value (slice.src.offset + z * slice.src.stride a + y * slice.src.stride b +
              slice.src.stride c * x))).sum)).Perm
      (sums toFp32 toLowp slice value) := by
  have hka : keptSize slice a = slice.size a := if_neg ha
  have hkb : keptSize slice b = slice.size b := if_neg hb
  have hkc : keptSize slice c = 1 := if_pos hc
  refine (List.Perm.of_eq ?_).trans (sums_perm toFp32 toLowp hab hac hbc value)
  simp only [hka, hkb, hkc, Int.toNat_one, List.range_one, List.map_cons, List.map_nil]
  refine List.flatMap_congr fun z hz => ?_
  rw [List.map_eq_flatMap]
  refine List.flatMap_congr fun y hy => ?_
  have hlt := List.mem_range.1 hz
  have hlt' := List.mem_range.1 hy
  rw [sumAt_entries toFp32 hab hac hbc value (by omega) (by omega) (by omega),
    address_entries hab hac hbc]
  simp [reducedSize, if_neg ha, if_neg hb, if_pos hc]

/-- All axes are reduced. -/
theorem sums_three (ha : Reduced slice a) (hb : Reduced slice b) (hc : Reduced slice c)
    (value : ℤ → E) :
    ([(slice.dst.offset, toLowp ((List.range (slice.size a).toNat).map fun z : ℕ =>
        ((List.range (slice.size b).toNat).map fun y : ℕ =>
          ((List.range (slice.size c).toNat).map fun x : ℕ =>
            toFp32 (value (slice.src.offset + z * slice.src.stride a + y * slice.src.stride b +
              slice.src.stride c * x))).sum).sum).sum)] : List (ℤ × E)).Perm
      (sums toFp32 toLowp slice value) := by
  have hka : keptSize slice a = 1 := if_pos ha
  have hkb : keptSize slice b = 1 := if_pos hb
  have hkc : keptSize slice c = 1 := if_pos hc
  refine (List.Perm.of_eq ?_).trans (sums_perm toFp32 toLowp hab hac hbc value)
  simp only [hka, hkb, hkc, Int.toNat_one, List.range_one, List.map_cons, List.map_nil,
    List.flatMap_singleton]
  rw [sumAt_entries toFp32 hab hac hbc value (by omega) (by omega) (by omega),
    address_entries hab hac hbc]
  simp [reducedSize, if_pos ha, if_pos hb, if_pos hc]

end Rows

theorem reducesRight_of {bytes : FloatBytes} (h : reduceIndex slice ≠ [])
    (hfit : bytes = .two → (∀ k, 1 ≤ slice.size k) → ScratchFits slice) :
    ReducesRight toFp32 toLowp bytes slice := by
  intro value
  rcases sorted h with ⟨hreduce, hnormal, hall⟩ |
    ⟨a, b, c, hab, hac, hbc, hreduce, hnormal, ha, hb, hc⟩ |
    ⟨a, b, c, hab, hac, hbc, hreduce, hnormal, ha, hb, hc⟩
  · have hstride : bytes = .two → slice.src.stride 2 = 0 := fun hbytes => by
      simpa only [ScratchFits, hreduce] using hfit hbytes fun k => pos_of_reduced (hall k)
    refine ⟨_, ?_, sums_three toFp32 toLowp (a := 0) (b := 1) (c := 2) (by decide) (by decide)
      (by decide) (hall 0) (hall 1) (hall 2) value⟩
    simp only [reduceblit, hreduce, hnormal]
    rw [Lib.foldlM_eq_add (fun z hz s => ?_) 0, zero_add]
    · rfl
    · have hlt := List.mem_range.1 hz
      exact addRows_eq toFp32 (by decide) (by decide) (by decide) hstride value (by omega) s
  · have hstride : bytes = .two → 1 ≤ slice.size a → slice.src.stride c = 0 := by
      intro hbytes hpos
      simpa only [ScratchFits, hreduce] using hfit hbytes fun k => by
        by_cases hka : k = a
        · exact hka ▸ hpos
        · by_cases hkb : k = b
          · exact hkb ▸ pos_of_reduced hb
          · exact eq_third hab hac hbc hka hkb ▸ pos_of_reduced hc
    refine ⟨_, ?_, sums_two toFp32 toLowp hab hac hbc ha hb hc value⟩
    simp only [reduceblit, hreduce, hnormal]
    rw [Lib.mapM_eq_some fun z hz => ?_]
    · rfl
    · have hlt := List.mem_range.1 hz
      rw [addRows_eq toFp32 hab hac hbc (fun hbytes => hstride hbytes (by omega)) value (by omega),
        zero_add]
      rfl
  · have hstride : bytes = .two → 1 ≤ slice.size a → 1 ≤ slice.size b → slice.src.stride c = 1 := by
      intro hbytes hpos hpos'
      simpa only [ScratchFits, hreduce] using hfit hbytes fun k => by
        by_cases hka : k = a
        · exact hka ▸ hpos
        · by_cases hkb : k = b
          · exact hkb ▸ hpos'
          · exact eq_third hab hac hbc hka hkb ▸ pos_of_reduced hc
    refine ⟨_, ?_, sums_one toFp32 toLowp hab hac hbc ha hb hc value⟩
    simp only [reduceblit, hreduce, hnormal]
    rw [Lib.mapM_eq_some fun z hz => Lib.mapM_eq_some fun y hy => ?_]
    · rw [List.flatMap_def]
      rfl
    · have hlt := List.mem_range.1 hz
      have hlt' := List.mem_range.1 hy
      rw [addRow_eq toFp32 (fun x hx =>
        memory_row hab hac hbc value (by omega) (by omega) hx) fun hbytes =>
          hstride hbytes (by omega) (by omega)]
      rfl

/-! ### Out of bounds -/

omit [AddCommMonoid M] in
theorem element_eq_none {fp32Buffer : List M} {i : ℤ} (h : i < 0 ∨ fp32Buffer.length ≤ i) :
    element fp32Buffer i = none := by
  unfold element
  split_ifs with hpos
  · exact List.getElem?_eq_none (by omega)
  · rfl

omit [AddCommMonoid M] in
theorem length_of_widen {src : ℤ → Option E} {srcY size : ℤ} {fp32Buffer : List M}
    (h : widen toFp32 src srcY size = some fp32Buffer) : fp32Buffer.length = size.toNat := by
  rw [Lib.length_of_mapM h, List.length_range]

/-- One widened element is not enough for a step. -/
theorem addEach_eq_none {src : ℤ → Option E} {srcY stride size : ℤ} (hstride : stride ≠ 0)
    (hsize : 1 < size) (summer : M) : addEach toFp32 .two src srcY stride size summer = none := by
  refine Lib.foldlM_eq_none (List.mem_range.2 (by omega : 1 < size.toNat)) (fun s => ?_) summer
  simp only [floats]
  cases hbuffer : widen toFp32 src srcY 1 with
  | none => rfl
  | some fp32Buffer =>
    have hlen := length_of_widen toFp32 hbuffer
    have hout : element fp32Buffer (stride * (1 : ℕ)) = none := element_eq_none (by omega)
    simp only [Option.map_some, Option.bind_eq_bind, Option.bind_some, hout]
    rfl

/-- A row with gaps goes beyond the widened elements. -/
theorem addRow_eq_none {src : ℤ → Option E} {srcY stride size : ℤ} (hzero : stride ≠ 0)
    (hone : stride ≠ 1) (hsize : 1 < size) : addRow toFp32 .two src srcY stride size = none := by
  simp only [addRow, floats]
  cases hbuffer : widen toFp32 src srcY size with
  | none => rfl
  | some fp32Buffer =>
    have hlen := length_of_widen toFp32 hbuffer
    have hlast : (((size - 1).toNat : ℕ) : ℤ) = size - 1 := by omega
    have hout : element fp32Buffer (stride * ((size - 1).toNat : ℕ)) = none := by
      refine element_eq_none ?_
      rw [hlast]
      rcases lt_or_gt_of_ne hzero with hneg | hpos
      · exact .inl (mul_neg_of_neg_of_pos hneg (by omega))
      · refine .inr ?_
        have hle : 2 * (size - 1) ≤ stride * (size - 1) :=
          mul_le_mul_of_nonneg_right (by omega) (by omega)
        omega
    refine Lib.foldlM_eq_none (List.mem_range.2 (by omega : (size - 1).toNat < size.toNat))
      (fun s => ?_) 0
    rw [hout]
    rfl

/-- A row is widened to its end even where the source stands still. -/
theorem addRow_eq_none_of_source {src : ℤ → Option E} {srcY stride size : ℤ} (hsize : 1 ≤ size)
    (h : src (srcY + (size - 1)) = none) : addRow toFp32 .two src srcY stride size = none := by
  have hwiden : widen toFp32 src srcY size = none := by
    refine Lib.mapM_eq_none (List.mem_range.2 (by omega : (size - 1).toNat < size.toNat)) ?_
    have hlast : (((size - 1).toNat : ℕ) : ℤ) = size - 1 := by omega
    rw [hlast, h]
    rfl
  simp only [addRow, floats, hwiden]
  rfl

/-- The last row ends at the end of the range. -/
theorem exists_last_row {a b c : Fin 3} (hab : a ≠ b) (hac : a ≠ c) (hbc : b ≠ c)
    (hpos : ∀ k, 1 ≤ slice.size k) (hstride : slice.src.stride c = 0) :
    ∃ z y : ℕ, z < slice.size a ∧ y < slice.size b ∧ ∀ (value : ℤ → E) (n : ℤ), 0 < n →
      memory slice value
        (slice.src.offset + z * slice.src.stride a + y * slice.src.stride b + n) = none := by
  have hne : (boxIndices slice.size).toFinset.Nonempty :=
    ⟨0, List.mem_toFinset.2 (mem_boxIndices.2 fun k => ⟨le_rfl, hpos k⟩)⟩
  obtain ⟨p, hp, hmax⟩ := (boxIndices slice.size).toFinset.exists_max_image slice.src.address hne
  obtain ⟨z, y, x, hz, hy, -, rfl⟩ := exists_entries hab hac hbc (List.mem_toFinset.1 hp)
  refine ⟨z, y, hz, hy, fun value n hn => if_neg ?_⟩
  rintro ⟨-, -, j, hj, -, hle⟩
  have := hmax j (List.mem_toFinset.2 hj)
  rw [address_entries hab hac hbc, hstride, mul_zero, add_zero] at this
  omega

theorem reduceblit_eq_none (h : reduceIndex slice ≠ []) (hpos : ∀ k, 1 ≤ slice.size k)
    (hfit : ¬ ScratchFits slice) (value : ℤ → E) :
    reduceblit toFp32 toLowp .two slice (memory slice value) = none := by
  rcases sorted h with ⟨hreduce, hnormal, hall⟩ |
    ⟨a, b, c, hab, hac, hbc, hreduce, hnormal, ha, hb, hc⟩ |
    ⟨a, b, c, hab, hac, hbc, hreduce, hnormal, ha, hb, hc⟩
  · simp only [ScratchFits, hreduce] at hfit
    simp only [reduceblit, hreduce, hnormal]
    rw [Lib.foldlM_eq_none (a := 0) (List.mem_range.2 (by have := hpos 0; omega)) (fun s => ?_)]
    · rfl
    · exact Lib.foldlM_eq_none (a := 0) (List.mem_range.2 (by have := hpos 1; omega))
        (fun s => addEach_eq_none toFp32 hfit (hall 2).1 s) s
  · simp only [ScratchFits, hreduce] at hfit
    simp only [reduceblit, hreduce, hnormal]
    rw [Lib.mapM_eq_none (a := 0) (List.mem_range.2 (by have := hpos a; omega)) ?_]
    · rfl
    · rw [Lib.foldlM_eq_none (a := 0) (List.mem_range.2 (by have := hpos b; omega))
        fun s => addEach_eq_none toFp32 hfit hc.1 s]
      rfl
  · simp only [ScratchFits, hreduce] at hfit
    have hrow : ∃ z y : ℕ, z < slice.size a ∧ y < slice.size b ∧
        addRow toFp32 .two (memory slice value)
          (slice.src.offset + z * slice.src.stride a + y * slice.src.stride b)
          (slice.src.stride c) (slice.size c) = none := by
      by_cases hzero : slice.src.stride c = 0
      · obtain ⟨z, y, hz, hy, hout⟩ := exists_last_row (E := E) hab hac hbc hpos hzero
        exact ⟨z, y, hz, hy,
          addRow_eq_none_of_source toFp32 (hpos c) (hout value _ (by have := hc.1; omega))⟩
      · exact ⟨0, 0, hpos a, hpos b, addRow_eq_none toFp32 hzero hfit hc.1⟩
    obtain ⟨z, y, hz, hy, hnone⟩ := hrow
    simp only [reduceblit, hreduce, hnormal]
    rw [Lib.mapM_eq_none (a := z) (List.mem_range.2 (by omega)) ?_]
    · rfl
    · refine Lib.mapM_eq_none (a := y) (List.mem_range.2 (by omega)) ?_
      rw [hnone]
      rfl

/-- **Main theorem.**  In reduce mode, every destination element gets the sum over the reduced axes,
within the range of the region and within the buffer, exactly when the elements have four bytes, or
the region is empty, or the steps of the innermost reduced axis are those that the buffer allows. -/
theorem reducesRight_iff (bytes : FloatBytes) (slice : Region τ) (h : reduceIndex slice ≠ []) :
    ReducesRight toFp32 toLowp bytes slice ↔
      bytes = .four ∨ (∃ k, slice.size k < 1) ∨ ScratchFits slice := by
  constructor
  · intro hright
    by_contra hnot
    push Not at hnot
    obtain ⟨hbytes, hpos, hfit⟩ := hnot
    obtain ⟨w, hw, -⟩ := hright fun _ => toLowp 0
    cases bytes with
    | four => exact hbytes rfl
    | two =>
      rw [reduceblit_eq_none toFp32 toLowp h hpos hfit] at hw
      cases hw
  · intro hwhen
    refine reducesRight_of toFp32 toLowp h fun hbytes hpos => ?_
    rcases hwhen with hfour | ⟨k, hk⟩ | hfit
    · rw [hfour] at hbytes
      cases hbytes
    · exact absurd (hpos k) (by omega)
    · exact hfit

/-- A row of three elements, `stride` apart, with one sum. -/
def sumRow (stride : ℤ) : Region Unit where
  src := { stride := ![0, 0, stride] }
  dst := { stride := ![0, 0, 0] }
  size := ![1, 1, 3]
  origin := ()

/-- Elements of two bytes next to each other are added up. -/
theorem reducesRight_sumRow :
    ReducesRight (E := ℤ) (M := ℤ) id id .two (sumRow 1) :=
  (reducesRight_iff id id .two (sumRow 1) (by decide)).2 (.inr (.inr rfl))

/-- Elements of two bytes with gaps between them are not. -/
theorem not_reducesRight_sumRow :
    ¬ ReducesRight (E := ℤ) (M := ℤ) id id .two (sumRow 2) := by
  intro h
  obtain ⟨w, hw, -⟩ := h id
  have hnone : reduceblit id id .two (sumRow 2) (memory (sumRow 2) (id : ℤ → ℤ)) = none := by
    decide
  rw [hnone] at hw
  cases hw

end Mnn.CPURaster
