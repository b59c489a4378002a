import Mnn.Lib.Loops
import Mnn.Shape.Slice

/-!
# Convolutions with groups

What a convolution with groups computes, for any meaning of its kernels on planes, and what it has to
do with convolutions without groups.

* `Common`, `Convolution2D`, `Value`: the operator's parameters and the tensors that it reads;
* `Kernels`, `convolve`, `Convolution2D.run`: what it computes, with its weights stored as floats, in
  a quantised buffer, or given as an input;
* `slice`: the parts of a tensor, with the extents of `SliceComputer`;
* `convolve_groups`: **a convolution with groups is one convolution for each group** on the parts of
  its inputs, weights and bias;
* `slice_equal`, `length_of_slice`: the parts at equally spaced points.
-/

namespace Mnn.Converter.GroupConvolution

open Mnn.Shape

variable {α γ σ P R : Type*}

/-- `Convolution2DCommon`; `rest` is what is copied as a whole: strides, dilations, pads and
activations. -/
structure Common (γ : Type*) where
  group : ℕ := 1
  inputCount : ℕ
  outputCount : ℕ
  kernelX : ℕ
  kernelY : ℕ
  hasOutputShape : Bool := false
  rest : γ

/-- `Convolution2D`, with the buffer of `quanParameter`. -/
structure Convolution2D (γ R : Type*) where
  common : Common γ
  weight : List R := []
  bias : List R := []
  quanParameter : Option (List UInt8) := none

/-- A tensor of planes by channels, one of numbers by its first axis, or an output shape. -/
inductive Value (σ P R : Type*)
  | maps (channels : List P)
  | rows (rows : List (List R))
  | shape (s : σ)

/-- What convolutions do with planes: one kernel over one plane, where the output may have a given
shape; the bias and the activation; and the weights that a quantised buffer stands for. -/
structure Kernels (γ σ P R : Type*) where
  tap (deconv : Bool) (kernelX kernelY : ℕ) (rest : γ) (outputShape : Option σ) (kernel : List R) :
    P → P
  post (rest : γ) (bias : Option R) : P → P
  decode (buffer : List UInt8) : List R

namespace Common

variable (common : Common γ)

/-- The channels of a group. -/
def inputPart : ℕ := common.inputCount / common.group
def outputPart : ℕ := common.outputCount / common.group

def kernelSize : ℕ := common.kernelX * common.kernelY

def weightSize : ℕ := common.outputCount * common.inputPart * common.kernelSize

/-- The parameters of one group. -/
def part : Common γ :=
  { common with group := 1, outputCount := common.outputPart, inputCount := common.inputPart }

/-- Where the kernel of output `o` for the `j`-th input of its group starts: weights are stored by
outputs and then inputs, those of a deconvolution by inputs and then outputs. -/
def kernelStart (deconv : Bool) (o j : ℕ) : ℕ :=
  (if deconv then
    (o / common.outputPart * common.inputPart + j) * common.outputPart + o % common.outputPart
  else o * common.inputPart + j) * common.kernelSize

/-- The channels of the first axis of the weights, as an input of their own. -/
def firstCount (deconv : Bool) : ℕ := if deconv then common.inputCount else common.outputCount

/-- The channels of their second axis. -/
def secondPart (deconv : Bool) : ℕ := if deconv then common.outputPart else common.inputPart

def IsWeight (deconv : Bool) (rows : List (List R)) : Prop :=
  rows.length = common.firstCount deconv ∧
    ∀ row ∈ rows, row.length = common.secondPart deconv * common.kernelSize

def IsBias (rows : List (List R)) : Prop :=
  rows.length = common.outputCount ∧ ∀ row ∈ rows, row.length = 1

instance (deconv : Bool) (rows : List (List R)) : Decidable (common.IsWeight deconv rows) :=
  inferInstanceAs (Decidable (_ ∧ _))

instance (rows : List (List R)) : Decidable (common.IsBias rows) :=
  inferInstanceAs (Decidable (_ ∧ _))

/-- The shape of the output, the last input of a deconvolution that has one, and the inputs before
it. -/
def operands (deconv : Bool) (inputs : List (Option (Value σ P R))) :
    Option (List (Option (Value σ P R)) × Option σ) :=
  if deconv && common.hasOutputShape then
    match inputs.getLast? with
    | some (some (.shape s)) => some (inputs.dropLast, some s)
    | _ => none
  else some (inputs, none)

end Common

section Meaning

variable [Add P] [Zero P] (K : Kernels γ σ P R) (deconv : Bool)

/-- The convolution with groups. -/
def convolve (common : Common γ) (outputShape : Option σ) (weight bias : List R)
    (channels : List P) : List P :=
  (List.range common.outputCount).map fun o =>
    K.post common.rest bias[o]? ((List.range common.inputPart).map fun j =>
      K.tap deconv common.kernelX common.kernelY common.rest outputShape
        ((weight.drop (common.kernelStart deconv o j)).take common.kernelSize)
        (channels.getD (o / common.outputPart * common.inputPart + j) 0)).sum

namespace Convolution2D

variable (c : Convolution2D γ R)

/-- The weights that are stored. -/
def storedWeight : List R :=
  match c.quanParameter with
  | none => c.weight
  | some buffer => K.decode buffer

/-- The weights and the bias: stored ones, or the inputs after the first. -/
def parameters : List (Option (Value σ P R)) → Option (List R × List R)
  | [] =>
    if (c.storedWeight K).length = c.common.weightSize ∧ c.bias.length = c.common.outputCount then
      some (c.storedWeight K, c.bias)
    else none
  | [some (.rows weight)] =>
    if c.common.IsWeight deconv weight then some (weight.flatten, []) else none
  | [some (.rows weight), some (.rows bias)] =>
    if c.common.IsWeight deconv weight ∧ c.common.IsBias bias then
      some (weight.flatten, bias.flatten)
    else none
  | _ => none

/-- What the operator computes, where its inputs fit. -/
def run (inputs : List (Option (Value σ P R))) : Option (Value σ P R) :=
  match c.common.operands deconv inputs with
  | some (some (.maps channels) :: rest, outputShape) =>
    if channels.length = c.common.inputCount then
      (c.parameters K deconv rest).map fun p =>
        .maps (convolve K deconv c.common outputShape p.1 p.2 channels)
    else none
  | _ => none

/-- A depthwise convolution has a group for each of its outputs, with one input. -/
def depthwise : Convolution2D γ R :=
  { c with common :=
    { c.common with group := c.common.outputCount, inputCount := c.common.outputCount } }

variable {K deconv c}

omit [Add P] [Zero P] in
theorem depthwise_eq (hgroup : c.common.outputCount = c.common.group)
    (hcount : c.common.inputCount = c.common.outputCount) : c.depthwise = c := by
  obtain ⟨⟨group, inputCount, outputCount, kernelX, kernelY, hasOutputShape, rest⟩, _⟩ := c
  obtain rfl : outputCount = group := hgroup
  obtain rfl : inputCount = outputCount := hcount
  rfl

omit [Add P] [Zero P] in
/-- Where the weights and the bias come from. -/
theorem parameters_cases {rest : List (Option (Value σ P R))} {weight bias : List R}
    (h : c.parameters K deconv rest = some (weight, bias)) :
    (rest = [] ∧ (c.storedWeight K).length = c.common.weightSize ∧
      c.bias.length = c.common.outputCount ∧ weight = c.storedWeight K ∧ bias = c.bias) ∨
    (∃ rows, rest = [some (.rows rows)] ∧ c.common.IsWeight deconv rows ∧ weight = rows.flatten ∧
      bias = []) ∨
    ∃ rows biasRows, rest = [some (.rows rows), some (.rows biasRows)] ∧
      c.common.IsWeight deconv rows ∧ c.common.IsBias biasRows ∧ weight = rows.flatten ∧
      bias = biasRows.flatten := by
  unfold parameters at h
  split at h
  · split_ifs at h with hsize
    obtain ⟨rfl, rfl⟩ := Prod.mk.inj (Option.some.inj h)
    exact .inl ⟨rfl, hsize.1, hsize.2, rfl, rfl⟩
  · next rows =>
    split_ifs at h with hweight
    obtain ⟨rfl, rfl⟩ := Prod.mk.inj (Option.some.inj h)
    exact .inr (.inl ⟨rows, rfl, hweight, rfl, rfl⟩)
  · next rows biasRows =>
    split_ifs at h with hboth
    obtain ⟨rfl, rfl⟩ := Prod.mk.inj (Option.some.inj h)
    exact .inr (.inr ⟨rows, biasRows, rfl, hboth.1, hboth.2, rfl, rfl⟩)
  · cases h

theorem run_eq_some_iff {inputs : List (Option (Value σ P R))} {v : Value σ P R} :
    c.run K deconv inputs = some v ↔ ∃ channels rest outputShape weight bias,
      c.common.operands deconv inputs = some (some (.maps channels) :: rest, outputShape) ∧
      channels.length = c.common.inputCount ∧
      c.parameters K deconv rest = some (weight, bias) ∧
      v = .maps (convolve K deconv c.common outputShape weight bias channels) := by
  unfold run
  constructor
  · intro h
    split at h
    · next channels rest outputShape hoperands =>
      split_ifs at h with hlength
      obtain ⟨⟨weight, bias⟩, hparameters, rfl⟩ := Option.map_eq_some_iff.1 h
      exact ⟨channels, rest, outputShape, weight, bias, hoperands, hlength, hparameters, rfl⟩
    · cases h
  · rintro ⟨channels, rest, outputShape, weight, bias, hoperands, hlength, hparameters, rfl⟩
    rw [hoperands]
    simp only [if_pos hlength, hparameters, Option.map_some]

end Convolution2D

end Meaning

/-! ### Parts -/

/-- The `i`-th part of `n` elements. -/
def cut (xs : List α) (n i : ℕ) : List α := (xs.drop (n * i)).take n

theorem length_cut {xs : List α} {n g i : ℕ} (h : xs.length = n * g) (hi : i < g) :
    (cut xs n i).length = n := by
  have hle : n * (i + 1) ≤ n * g := Nat.mul_le_mul_left n hi
  rw [cut, List.length_take, List.length_drop, h]
  rw [Nat.mul_succ] at hle
  omega

theorem getElem?_cut {xs : List α} {n i k : ℕ} (hk : k < n) :
    (cut xs n i)[k]? = xs[n * i + k]? := by
  rw [cut, List.getElem?_take_of_lt hk, List.getElem?_drop]

theorem mem_of_mem_cut {xs : List α} {n i : ℕ} {x : α} (h : x ∈ cut xs n i) : x ∈ xs :=
  List.mem_of_mem_drop (List.mem_of_mem_take h)

/-- A range that lies in a part. -/
theorem take_drop_cut {xs : List α} {n i s k : ℕ} (h : s + k ≤ n) :
    ((cut xs n i).drop s).take k = (xs.drop (n * i + s)).take k := by
  rw [cut, List.drop_take, List.take_take, List.drop_drop, min_eq_left (by omega)]

/-- Rows of one length. -/
theorem flatten_cut {rows : List (List α)} {n : ℕ} (h : ∀ row ∈ rows, row.length = n) (k i : ℕ) :
    (cut rows k i).flatten = cut rows.flatten (k * n) i := by
  rw [cut, Lib.flatten_take fun row hrow => h row (List.mem_of_mem_drop hrow), Lib.flatten_drop h,
    Nat.mul_right_comm]
  rfl

/-! ### One convolution for each group -/

section Groups

variable [Add P] [Zero P] (K : Kernels γ σ P R) {deconv : Bool} {common : Common γ}

theorem part_inputPart : common.part.inputPart = common.inputPart := Nat.div_one _

theorem part_outputPart : common.part.outputPart = common.outputPart := Nat.div_one _

/-- The kernels of a group follow each other, and those of the next group follow them. -/
theorem kernelStart_eq {i o j : ℕ} (ho : o < common.outputPart) :
    common.kernelStart deconv (i * common.outputPart + o) j =
      common.outputPart * common.inputPart * common.kernelSize * i +
        common.part.kernelStart deconv o j := by
  have hdiv : (i * common.outputPart + o) / common.outputPart = i := by
    rw [Nat.mul_comm, Nat.mul_add_div (by omega), Nat.div_eq_of_lt ho, Nat.add_zero]
  have hmod : (i * common.outputPart + o) % common.outputPart = o := by
    rw [Nat.mul_comm, Nat.mul_add_mod, Nat.mod_eq_of_lt ho]
  have hsize : common.part.kernelSize = common.kernelSize := rfl
  rw [Common.kernelStart, Common.kernelStart, part_inputPart, part_outputPart, hsize, hdiv, hmod,
    Nat.div_eq_of_lt ho, Nat.mod_eq_of_lt ho]
  cases deconv with
  | false =>
    simp only [Bool.false_eq_true, if_false]
    ring
  | true =>
    simp only [if_true]
    ring

/-- A kernel of a group lies in the weights of the group. -/
theorem kernelStart_le {o j : ℕ} (ho : o < common.outputPart) (hj : j < common.inputPart) :
    common.part.kernelStart deconv o j + common.kernelSize ≤
      common.outputPart * common.inputPart * common.kernelSize := by
  have hsize : common.part.kernelSize = common.kernelSize := rfl
  rw [Common.kernelStart, part_inputPart, part_outputPart, hsize, Nat.div_eq_of_lt ho,
    Nat.mod_eq_of_lt ho, ← Nat.succ_mul]
  refine Nat.mul_le_mul_right _ ?_
  cases deconv with
  | false =>
    have hle := Nat.mul_le_mul_right common.inputPart (Nat.succ_le_of_lt ho)
    rw [Nat.succ_mul] at hle
    simp only [Bool.false_eq_true, if_false]
    omega
  | true =>
    have hle := Nat.mul_le_mul_right common.outputPart (Nat.succ_le_of_lt hj)
    rw [Nat.succ_mul, Nat.mul_comm common.inputPart] at hle
    simp only [if_true, Nat.zero_mul, Nat.zero_add]
    omega

/-- **A convolution with groups is one convolution for each group.** -/
theorem convolve_groups (hgroup : common.group ∣ common.outputCount) (outputShape : Option σ)
    (weight bias : List R) (channels : List P) :
    convolve K deconv common outputShape weight bias channels =
      (List.range common.group).flatMap fun i => convolve K deconv common.part outputShape
        (cut weight (common.outputPart * common.inputPart * common.kernelSize) i)
        (cut bias common.outputPart i) (cut channels common.inputPart i) := by
  have hcount : common.outputCount = common.group * common.outputPart :=
    (Nat.mul_div_cancel' hgroup).symm
  unfold convolve
  rw [hcount, ← Lib.flatMap_range_map]
  refine List.flatMap_congr fun i _ => List.map_congr_left fun o ho => ?_
  have ho' : o < common.outputPart := List.mem_range.1 ho
  have hdiv : (i * common.outputPart + o) / common.outputPart = i := by
    rw [Nat.mul_comm, Nat.mul_add_div (by omega), Nat.div_eq_of_lt ho', Nat.add_zero]
  have hbias : (cut bias common.outputPart i)[o]? = bias[i * common.outputPart + o]? := by
    rw [getElem?_cut ho', Nat.mul_comm]
  rw [hbias, part_inputPart, part_outputPart]
  refine congrArg (K.post _ _) (congrArg List.sum (List.map_congr_left fun j hj => ?_))
  have hj' : j < common.inputPart := List.mem_range.1 hj
  have hchannel : (cut channels common.inputPart i).getD
      (o / common.outputPart * common.inputPart + j) 0 =
        channels.getD ((i * common.outputPart + o) / common.outputPart * common.inputPart + j) 0 := by
    rw [Nat.div_eq_of_lt ho', hdiv, Nat.zero_mul, Nat.zero_add, List.getD_eq_getElem?_getD,
      getElem?_cut hj', ← List.getD_eq_getElem?_getD, Nat.mul_comm]
  have hkernel : ((cut weight (common.outputPart * common.inputPart * common.kernelSize) i).drop
      (common.part.kernelStart deconv o j)).take common.part.kernelSize =
        (weight.drop (common.kernelStart deconv (i * common.outputPart + o) j)).take
          common.kernelSize := by
    rw [kernelStart_eq ho']
    exact take_drop_cut (kernelStart_le ho' hj')
  rw [hchannel, hkernel]
  rfl

end Groups

/-! ### Slices -/

section Slice

/-- An extent that is set, and is not negative. -/
def setExtent : Option ℤ → Option ℕ
  | some e => if 0 ≤ e then some e.toNat else none
  | none => none

theorem setExtent_natCast (n : ℕ) : setExtent (some (n : ℤ)) = some n := by
  rw [setExtent, if_pos (Int.natCast_nonneg n), Int.toNat_natCast]

/-- The extents of the outputs. -/
def extents (points : List ℤ) (extent outputs : ℕ) : Option (List ℕ) :=
  match SliceComputer.onComputeSize ⟨.caffe, some points⟩ none extent outputs with
  | .ok extents => extents.mapM setExtent
  | .error _ => none

/-- Output `i` of a slice at such points, when it lies in the input. -/
def slice (points : List ℤ) (outputs : ℕ) (xs : List α) (i : ℕ) : Option (List α) :=
  (extents points xs.length outputs).bind fun lengths =>
    if (lengths.take (i + 1)).sum ≤ xs.length then
      some ((xs.drop (lengths.take i).sum).take (lengths.getD i 0))
    else none

/-- `slicePoints`, for equal parts. -/
def slicePoints (count group : ℕ) : List ℤ :=
  (List.range (group - 1)).map fun i => ((count / group * (i + 1) : ℕ) : ℤ)

variable {count group : ℕ}

theorem differences_slicePoints (hcount : count < 2 ^ 31) (start n : ℕ)
    (h : start + n ≤ group) : SliceComputer.differences ((count / group * start : ℕ) : ℤ)
      ((List.range n).map fun i => ((count / group * (start + i + 1) : ℕ) : ℤ)) =
        List.replicate n ((count / group : ℕ) : ℤ) := by
  have hpart : count / group < 2 ^ 31 := (Nat.div_le_self _ _).trans_lt hcount
  induction n generalizing start with
  | zero => rfl
  | succ n ih =>
    have hnext := ih (start + 1) (by omega)
    have hcongr : ∀ i, start + (i + 1) + 1 = start + 1 + i + 1 := fun i => by omega
    have hdiff : ((count / group * (start + 1) : ℕ) : ℤ) - ((count / group * start : ℕ) : ℤ) =
        ((count / group : ℕ) : ℤ) := by
      rw [Nat.mul_succ]
      push_cast
      ring
    rw [List.range_succ_eq_map, List.map_cons, List.map_map, SliceComputer.differences,
      List.replicate_succ, Nat.add_zero, hdiff, wrap_eq (Int.natCast_nonneg _) (by omega)]
    refine congrArg (_ :: ·) (Eq.trans (congrArg _ ?_) hnext)
    exact List.map_congr_left fun i _ => by rw [Function.comp_apply, hcongr]

/-- What is left for the last part. -/
theorem getLastD_slicePoints : (slicePoints count group).getLastD 0 =
    ((count / group * (group - 1) : ℕ) : ℤ) := by
  cases hgroup : group - 1 with
  | zero => simp [slicePoints, hgroup]
  | succ n => simp [slicePoints, hgroup, List.range_succ]

/-- The extents of equal parts, apart from the last one. -/
theorem onComputeSize_slicePoints (hgroup : 0 < group) (hcount : count < 2 ^ 31) (extent : ℕ) :
    SliceComputer.onComputeSize ⟨.caffe, some (slicePoints count group)⟩ none extent group =
      .ok ((List.replicate (group - 1) ((count / group : ℕ) : ℤ) ++
        [wrap (extent - (count / group * (group - 1) : ℕ))]).map some) := by
  have hlength : group = (slicePoints count group).length + 1 := by
    rw [slicePoints, List.length_map, List.length_range]
    omega
  have hdiff : SliceComputer.differences 0 (slicePoints count group) =
      List.replicate (group - 1) ((count / group : ℕ) : ℤ) := by
    have h := differences_slicePoints hcount 0 (group - 1) (by omega : 0 + (group - 1) ≤ group)
    simp only [Nat.zero_add, Nat.mul_zero, Nat.cast_zero] at h
    exact h
  have hcaffe := SliceComputer.caffe_eq (slicePoints count group) extent
  rw [← hlength, SliceComputer.differences_concat, hdiff, getLastD_slicePoints] at hcaffe
  exact (if_pos rfl).trans hcaffe

/-- **Equal parts**, where the points were computed for the extent of the input. -/
theorem slice_equal (hgroup : 0 < group) (hdvd : group ∣ count) (hcount : count < 2 ^ 31)
    {xs : List α} (hxs : xs.length = count) {i : ℕ} (hi : i < group) :
    slice (slicePoints count group) group xs i = some (cut xs (count / group) i) := by
  have hpart : count / group < 2 ^ 31 := (Nat.div_le_self _ _).trans_lt hcount
  have hlast : (count : ℤ) - (count / group * (group - 1) : ℕ) = (count / group : ℕ) := by
    obtain ⟨n, rfl⟩ : ∃ n, group = n + 1 := ⟨group - 1, by omega⟩
    have hmul := Nat.div_mul_cancel hdvd
    rw [Nat.mul_succ] at hmul
    rw [Nat.add_sub_cancel]
    omega
  have hall : List.replicate (group - 1) ((count / group : ℕ) : ℤ) ++ [((count / group : ℕ) : ℤ)] =
      List.replicate group ((count / group : ℕ) : ℤ) := by
    rw [← List.replicate_succ', Nat.sub_add_cancel hgroup]
  have hextents : extents (slicePoints count group) xs.length group =
      some (List.replicate group (count / group)) := by
    rw [extents, hxs, onComputeSize_slicePoints hgroup hcount, hlast,
      wrap_eq (Int.natCast_nonneg _) (by omega), hall]
    dsimp only
    rw [Lib.mapM_eq_some (g := fun _ => count / group) fun e he => ?_, List.map_const',
      List.length_map, List.length_replicate]
    obtain ⟨x, hx, rfl⟩ := List.mem_map.1 he
    rw [List.eq_of_mem_replicate hx, setExtent_natCast]
  have htake : ∀ n ≤ group, ((List.replicate group (count / group)).take n).sum =
      count / group * n := by
    intro n hn
    rw [List.take_replicate, List.sum_replicate, min_eq_left hn, smul_eq_mul, Nat.mul_comm]
  have hle : count / group * (i + 1) ≤ xs.length := by
    rw [hxs]
    exact (Nat.mul_le_mul_left _ hi).trans (Nat.div_mul_le_self _ _)
  rw [slice, hextents, Option.bind_some, htake _ hi, if_pos hle, htake _ hi.le,
    List.getD_replicate _ hi]
  rfl

/-- The first of several parts has the size that the points give it, whatever the input. -/
theorem length_of_slice (hgroup : 1 < group) (hcount : count < 2 ^ 31) {xs ys : List α}
    (h : slice (slicePoints count group) group xs 0 = some ys) : ys.length = count / group := by
  obtain ⟨n, rfl⟩ : ∃ n, group = n + 2 := ⟨group - 2, by omega⟩
  obtain ⟨lengths, hlengths, hslice⟩ := Option.bind_eq_some_iff.1 h
  rw [extents, onComputeSize_slicePoints (by omega) hcount] at hlengths
  dsimp only at hlengths
  rw [show n + 2 - 1 = n + 1 from rfl, List.replicate_succ, List.cons_append, List.map_cons,
    Lib.mapM_eq_some_iff] at hlengths
  rcases hlengths with _ | ⟨hfirst, -⟩
  rw [setExtent_natCast] at hfirst
  obtain rfl := Option.some.inj hfirst
  split_ifs at hslice with hle
  obtain rfl := Option.some.inj hslice
  rw [List.take_succ_cons, List.take_zero, List.sum_singleton] at hle
  rw [List.take_zero, List.sum_nil, List.drop_zero, List.getD_cons_zero, List.length_take,
    min_eq_left hle]

end Slice

end Mnn.Converter.GroupConvolution
