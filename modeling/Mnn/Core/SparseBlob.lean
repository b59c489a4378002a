import Mnn.Core.DenseBlob

/-!
# Sparse quantised weights

`WriteSparseQuanBlobs` (`source/core/IDSTEncoder.hpp`) and `ReadSparseQuanData_c`
(`source/core/ConvolutionCommon.cpp`): only the weights whose value differs from the value of zero
are stored, each with its distance from the stored weight before it.  A distance has few bits, so a
long run of zeros is cut by filler entries.

* `sparseLoop`, `getBestMaxStep`, `writeSparseQuanBlobs`, `readSparseQuanData`;
* `scatter_sparseLoop`: putting the stored weights back over the zeros gives all the values;
* `sparseEntries_steps`: the count, the bits of the steps and where the steps stop;
* `sparse_eq_dense`: with the computed scales both forms decode to one array.
-/

namespace Mnn.Idst

open Lib

/-! ### Writing -/

section Writer

variable (weightData alphaData : List ℚ) (area channel : ℕ) (asymmetricQuantFlag : Bool) (bits : ℕ)

/-- For every weight, its value and the value of zero in its channel, neither clamped. -/
def sparseValues : List (ℤ × ℤ) :=
  (List.range (area * channel)).map fun i =>
    (quantValue bits asymmetricQuantFlag alphaData (i / area) (weightData.getD i 0),
      zeroQuant bits asymmetricQuantFlag alphaData (i / area))

end Writer

/-- The loop of `GetSparsity` from weight `i` on: the count `nnz` of stored weights. -/
def countLoop (iMaxStep : ℕ) : ℕ → ℕ → ℕ → List (ℤ × ℤ) → ℕ
  | _, _, nnz, [] => nnz
  | i, iPreIdx, nnz, (value, zeroQuant) :: l =>
    let (nnz, iPreIdx) := if value ≠ zeroQuant then (nnz + 1, i) else (nnz, iPreIdx)
    let (nnz, iPreIdx) := if i - iPreIdx ≥ iMaxStep then (nnz + 1, i) else (nnz, iPreIdx)
    countLoop iMaxStep (i + 1) iPreIdx nnz l

/-- The `nnz` that `GetSparsity` reports. -/
def getSparsity (iMaxStep : ℕ) (values : List (ℤ × ℤ)) : ℕ := countLoop iMaxStep 0 0 0 values

/-- `GetBestMaxStep`: the count and the bits of a step.  Without a size below the initial one the
bits stay unset, here `0`, and the count is `0`. -/
def getBestMaxStep (blobDataSize : ℕ) (values : List (ℤ × ℤ)) : ℕ × ℕ :=
  let best := (List.range 7).foldl (fun (best : ℕ × ℕ × ℕ) k =>
    let i := k + 2
    let nnz := getSparsity (2 ^ i - 1) values
    let tmp := bufLen i nnz + bufLen blobDataSize nnz
    if tmp < best.1 then (tmp, nnz, i) else best) (1000000000, 0, 0)
  best.2

/-- The loop of `WriteSparseQuanBlobs` from weight `i` on: the steps and the values stored. -/
def sparseLoop (iMaxStep : ℕ) : ℕ → ℕ → List (ℤ × ℤ) → List (ℕ × ℤ)
  | _, _, [] => []
  | i, iPreIdx, (value, zeroQuant) :: l =>
    let (stored, iPreIdx) :=
      if value ≠ zeroQuant then ([(i - iPreIdx, value)], i) else ([], iPreIdx)
    let (filler, iPreIdx) :=
      if i - iPreIdx ≥ iMaxStep then ([(i - iPreIdx, zeroQuant)], i) else ([], iPreIdx)
    stored ++ filler ++ sparseLoop iMaxStep (i + 1) iPreIdx l

/-- `mapWeight[value]`: values that are not in the table get `0`. -/
def mapWeight (bits : ℕ) (value : ℤ) : Byte :=
  BitVec.ofNat 8 (if value ∈ getWeightSet bits then (getWeightSet bits).idxOf value else 0)

/-- `WriteSparseQuanBlobs`: the bytes written and `shapeUseInt32`, or nothing where it returns
`false`. -/
def writeSparseQuanBlobs (weightData alphaData : List ℚ) (area channel : ℕ)
    (asymmetricQuantFlag : Bool) (bits : ℕ) : Option (List Byte × Bool) :=
  let setWeight := getWeightSet bits
  let iDataNeedBits := max (Nat.clog 2 setWeight.length) 1
  let values := sparseValues weightData alphaData area channel asymmetricQuantFlag bits
  let (nnz, iNeedBits) := getBestMaxStep iDataNeedBits
    (sparseValues weightData alphaData area channel asymmetricQuantFlag iDataNeedBits)
  if nnz = 0 then none
  else
    let entries := sparseLoop (2 ^ iNeedBits - 1) 0 0 values
    let buf := fillBuffer (bufLen iNeedBits nnz) (entries.map fun e => BitVec.ofNat 8 e.1) iNeedBits
    let dataBuf := fillBuffer (bufLen iDataNeedBits nnz) (entries.map fun e => mapWeight bits e.2)
      iDataNeedBits
    let (dims, shapeUseInt32) := writeBlobDim [channel, area]
    some (dims ++ (toLe 4 nnz ++ (BitVec.ofNat 8 iNeedBits :: (buf ++
      (BitVec.ofNat 8 setWeight.length :: (setWeight.map (BitVec.ofInt 8) ++ dataBuf))))),
      shapeUseInt32)

/-! ### Reading -/

/-- `InsertSimpleSet`, in a set of at most 256 values. -/
def insertSimpleSet (set : List ℤ) (value : ℤ) : List ℤ :=
  if set.length ≥ 256 then set else if value ∈ set then set else set ++ [value]

/-- `InsertMap`, in a map of at most 256 keys. -/
def insertMap (map : List (Byte × ℤ)) (k : Byte) (v : ℤ) : List (Byte × ℤ) :=
  if k ∈ map.map Prod.fst then map.map fun e => if e.1 = k then (k, v) else e
  else if map.length ≥ 256 then map
  else map ++ [(k, v)]

/-- The map from indices to values that the reader builds from its sorted set. -/
def indexMap (uniSet : List ℤ) : List (Byte × ℤ) :=
  (List.range uniSet.length).foldl
    (fun map i => insertMap map (BitVec.ofNat 8 i) (uniSet.getD i 0)) []

/-- The loop that puts the values at their places; it stops at an index without a value when the
caller gave no buffer. -/
def scatter (lookup : Byte → Option ℤ) (hasOutput : Bool) :
    List Byte → ℕ → List (Byte × Byte) → Option (List Byte)
  | blob, _, [] => some blob
  | blob, iPreIdx, (step, idx) :: l =>
    let iPreIdx := iPreIdx + step.toNat
    if (lookup idx).isNone ∧ hasOutput = false then none
    else
      scatter lookup hasOutput (blob.set iPreIdx (BitVec.ofInt 8 ((lookup idx).getD 0))) iPreIdx l

/-- `ReadSparseQuanData_c`. -/
def readSparseQuanData (shapeInt32 hasScaleInt forceQuant forceFloat : Bool) (alpha : List ℚ)
    (outputPtr : Option (List Byte)) (result : Int8Common) (s : List Byte) : ReadResult :=
  let (shape, s) := readBlobDim shapeInt32 32 s
  let size := shape.prod
  let output := if !forceQuant && (forceFloat || !hasScaleInt) then none else outputPtr
  let blob := output.getD (List.replicate size 0)
  let nnz := ofLe (s.take 4)
  let s := s.drop 4
  let iIdxNeedBits := (s.headD 0).toNat
  let s := s.tail
  let arrIdx := splitBufToArray (s.take (bufLen iIdxNeedBits nnz)) nnz iIdxNeedBits
  let s := s.drop (bufLen iIdxNeedBits nnz)
  let ucMapSize := sampleCount (s.headD 0)
  let weightMap := (s.tail.take ucMapSize).map BitVec.toInt
  let s := s.tail.drop ucMapSize
  let setWeight := simpleRank (weightMap.foldl insertSimpleSet [])
  let map := indexMap setWeight
  let iDataNeedBits := max (Nat.clog 2 ucMapSize) 1
  let arrWeightIdx := splitBufToArray (s.take (bufLen iDataNeedBits nnz)) nnz iDataNeedBits
  let rest := s.drop (bufLen iDataNeedBits nnz)
  let channel := shape.headD 0
  let zeros :=
    if alpha.length = 2 * channel then
      (List.range channel).flatMap fun i =>
        List.replicate (size / channel) (BitVec.ofInt 8 (zeroQuant iDataNeedBits true alpha i))
    else List.replicate size 0
  match scatter (fun idx => List.lookup idx map) outputPtr.isSome (store blob zeros) 0
      (arrIdx.zip arrWeightIdx) with
  | none => { blob := none, result := { result with weightMap }, rest }
  | some blob => { blob := some blob, len := size, result := { result with weightMap }, rest }

/-! ### What the writer stores -/

/-- What the writer stores: nothing where it returns `false`. -/
def sparseEntries (weightData alphaData : List ℚ) (area channel : ℕ) (asymmetricQuantFlag : Bool)
    (bits : ℕ) : List (ℕ × ℤ) :=
  let iDataNeedBits := max (Nat.clog 2 (getWeightSet bits).length) 1
  let (nnz, iNeedBits) := getBestMaxStep iDataNeedBits
    (sparseValues weightData alphaData area channel asymmetricQuantFlag iDataNeedBits)
  if nnz = 0 then []
  else sparseLoop (2 ^ iNeedBits - 1) 0 0
    (sparseValues weightData alphaData area channel asymmetricQuantFlag bits)

/-- The bytes for some entries. -/
def sparseBytes (area channel bits iDataNeedBits nnz iNeedBits : ℕ) (entries : List (ℕ × ℤ)) :
    List Byte × Bool :=
  let setWeight := getWeightSet bits
  let buf := fillBuffer (bufLen iNeedBits nnz) (entries.map fun e => BitVec.ofNat 8 e.1) iNeedBits
  let dataBuf := fillBuffer (bufLen iDataNeedBits nnz) (entries.map fun e => mapWeight bits e.2)
    iDataNeedBits
  let dims := writeBlobDim [channel, area]
  (dims.1 ++ (toLe 4 nnz ++ (BitVec.ofNat 8 iNeedBits :: (buf ++
    (BitVec.ofNat 8 setWeight.length :: (setWeight.map (BitVec.ofInt 8) ++ dataBuf))))), dims.2)

section Entries

variable (weightData alphaData : List ℚ) (area channel : ℕ) (asymmetricQuantFlag : Bool) (bits : ℕ)

theorem sparseEntries_eq :
    let iDataNeedBits := max (Nat.clog 2 (getWeightSet bits).length) 1
    let best := getBestMaxStep iDataNeedBits
      (sparseValues weightData alphaData area channel asymmetricQuantFlag iDataNeedBits)
    sparseEntries weightData alphaData area channel asymmetricQuantFlag bits =
      if best.1 = 0 then []
      else sparseLoop (2 ^ best.2 - 1) 0 0
        (sparseValues weightData alphaData area channel asymmetricQuantFlag bits) := by
  intro iDataNeedBits best
  rw [sparseEntries]

/-- The writer writes the bytes of its entries. -/
theorem writeSparseQuanBlobs_eq :
    let iDataNeedBits := max (Nat.clog 2 (getWeightSet bits).length) 1
    let best := getBestMaxStep iDataNeedBits
      (sparseValues weightData alphaData area channel asymmetricQuantFlag iDataNeedBits)
    writeSparseQuanBlobs weightData alphaData area channel asymmetricQuantFlag bits =
      if best.1 = 0 then none
      else some (sparseBytes area channel bits iDataNeedBits best.1 best.2
        (sparseEntries weightData alphaData area channel asymmetricQuantFlag bits)) := by
  intro iDataNeedBits best
  rw [sparseEntries_eq, writeSparseQuanBlobs]
  rcases hbest : getBestMaxStep iDataNeedBits
    (sparseValues weightData alphaData area channel asymmetricQuantFlag iDataNeedBits) with ⟨_, _⟩
  simp only [best, iDataNeedBits] at hbest ⊢
  simp only [hbest]
  split_ifs
  · rfl
  · simp only [sparseBytes]

end Entries

/-- The count is that of the entries. -/
theorem countLoop_eq (iMaxStep i iPreIdx nnz : ℕ) (l : List (ℤ × ℤ)) :
    countLoop iMaxStep i iPreIdx nnz l = nnz + (sparseLoop iMaxStep i iPreIdx l).length := by
  induction l generalizing i iPreIdx nnz with
  | nil => rfl
  | cons p l ih =>
    obtain ⟨value, zeroQuant⟩ := p
    simp only [countLoop, sparseLoop, ih]
    split_ifs <;> simp only [List.length_append, List.length_cons, List.length_nil] <;> omega

theorem getSparsity_eq (iMaxStep : ℕ) (values : List (ℤ × ℤ)) :
    getSparsity iMaxStep values = (sparseLoop iMaxStep 0 0 values).length := by
  rw [getSparsity, countLoop_eq, Nat.zero_add]

/-- A choice of step bits whose entries are counted and stay below the initial size. -/
def IsStepChoice (blobDataSize : ℕ) (values : List (ℤ × ℤ)) (nnz iNeedBits : ℕ) : Prop :=
  2 ≤ iNeedBits ∧ iNeedBits ≤ 8 ∧ nnz = getSparsity (2 ^ iNeedBits - 1) values ∧
    bufLen iNeedBits nnz + bufLen blobDataSize nnz < 1000000000

theorem getBestMaxStep_spec {blobDataSize nnz iNeedBits : ℕ} {values : List (ℤ × ℤ)}
    (h : getBestMaxStep blobDataSize values = (nnz, iNeedBits)) (hnnz : nnz ≠ 0) :
    IsStepChoice blobDataSize values nnz iNeedBits := by
  have key : ∀ (l : List ℕ) (best : ℕ × ℕ × ℕ), (∀ k ∈ l, k < 7) →
      best.1 ≤ 1000000000 →
      (best.2.1 ≠ 0 → IsStepChoice blobDataSize values best.2.1 best.2.2) →
      let r := l.foldl (fun (best : ℕ × ℕ × ℕ) k =>
        let i := k + 2
        let nnz := getSparsity (2 ^ i - 1) values
        let tmp := bufLen i nnz + bufLen blobDataSize nnz
        if tmp < best.1 then (tmp, nnz, i) else best) best
      r.2.1 ≠ 0 → IsStepChoice blobDataSize values r.2.1 r.2.2 := by
    intro l
    induction l with
    | nil => exact fun best _ _ hbest => hbest
    | cons k l ih =>
      intro best hl hsize hbest
      have hk : k < 7 := hl k List.mem_cons_self
      rw [List.foldl_cons]
      refine ih _ (fun j hj => hl j (List.mem_cons_of_mem k hj)) ?_ ?_
      · dsimp only
        split_ifs with hlt
        · exact hlt.le.trans hsize
        · exact hsize
      · dsimp only
        split_ifs with hlt
        · exact fun _ => ⟨Nat.le_add_left 2 k, Nat.succ_le_of_lt (Nat.succ_lt_succ hk), rfl,
            hlt.trans_le hsize⟩
        · exact hbest
  have hspec := key (List.range 7) (1000000000, 0, 0) (fun k hk => List.mem_range.1 hk) le_rfl
    (fun h0 => absurd rfl h0)
  rw [getBestMaxStep] at h
  simp only [h] at hspec
  exact hspec hnnz

/-- The steps fit their bits, and only values of the weights are stored. -/
theorem mem_sparseLoop {iMaxStep i iPreIdx : ℕ} (hstep : 1 ≤ iMaxStep)
    (hpre : i ≤ iPreIdx + iMaxStep)
    {l : List (ℤ × ℤ)} {e : ℕ × ℤ} (he : e ∈ sparseLoop iMaxStep i iPreIdx l) :
    e.1 ≤ iMaxStep ∧ e.2 ∈ l.map Prod.fst := by
  induction l generalizing i iPreIdx with
  | nil => exact absurd he List.not_mem_nil
  | cons p l ih =>
    obtain ⟨value, zeroQuant⟩ := p
    simp only [sparseLoop] at he
    by_cases hvalue : value = zeroQuant
    · subst hvalue
      by_cases hfill : i - iPreIdx ≥ iMaxStep
      · simp only [ne_eq, not_true_eq_false, if_false, hfill, if_true, List.nil_append,
          List.singleton_append, List.mem_cons] at he
        rcases he with rfl | he
        · exact ⟨by dsimp only; omega, by simp⟩
        · obtain ⟨h₁, h₂⟩ := ih (by omega) he
          exact ⟨h₁, List.mem_cons_of_mem _ h₂⟩
      · simp only [ne_eq, not_true_eq_false, if_false, hfill, List.nil_append] at he
        obtain ⟨h₁, h₂⟩ := ih (by omega) he
        exact ⟨h₁, List.mem_cons_of_mem _ h₂⟩
    · have hfill : ¬ i - i ≥ iMaxStep := by omega
      simp only [ne_eq, hvalue, not_false_eq_true, if_true, hfill, if_false, List.append_nil,
        List.singleton_append, List.mem_cons] at he
      rcases he with rfl | he
      · exact ⟨by dsimp only; omega, by simp⟩
      · obtain ⟨h₁, h₂⟩ := ih (by omega) he
        exact ⟨h₁, List.mem_cons_of_mem _ h₂⟩

/-! ### What the reader puts back -/

/-- One stored weight put back. -/
theorem scatter_cons {lookup : Byte → Option ℤ} {index : ℤ → Byte} (hasOutput : Bool)
    {i iPreIdx : ℕ} (hi : iPreIdx ≤ i) (hpre : i < iPreIdx + 256) {done : List Byte}
    (hdone : done.length = i) {v : ℤ} (hlookup : lookup (index v) = some v) (x : Byte)
    (rest : List Byte) (entries : List (Byte × Byte)) :
    scatter lookup hasOutput (done ++ x :: rest) iPreIdx
        ((BitVec.ofNat 8 (i - iPreIdx), index v) :: entries) =
      scatter lookup hasOutput (done ++ BitVec.ofInt 8 v :: rest) i entries := by
  have hpos : iPreIdx + (BitVec.ofNat 8 (i - iPreIdx)).toNat = i := by
    rw [BitVec.toNat_ofNat]
    omega
  have hset : (done ++ x :: rest).set i (BitVec.ofInt 8 v) = done ++ BitVec.ofInt 8 v :: rest := by
    rw [← hdone, List.set_append_right _ _ le_rfl, Nat.sub_self, List.set_cons_zero]
  rw [scatter]
  simp only [hlookup, Option.isNone_some, Bool.false_eq_true, false_and, if_false, hpos,
    Option.getD_some, hset]

/-- **Stored weights over the zeros.**  The stored weights put back at their steps over the value of
zero everywhere give the value of every weight; a filler repeats the zero it stands on. -/
theorem scatter_sparseLoop {iMaxStep : ℕ} (hstep : 1 ≤ iMaxStep) (hmax : iMaxStep < 256)
    (lookup : Byte → Option ℤ) (index : ℤ → Byte) (hasOutput : Bool) (tail : List Byte)
    (l : List (ℤ × ℤ)) (hlookup : ∀ p ∈ l, lookup (index p.1) = some p.1) {i iPreIdx : ℕ}
    (hi : iPreIdx ≤ i) (hpre : i ≤ iPreIdx + iMaxStep) (done : List Byte)
    (hdone : done.length = i) :
    scatter lookup hasOutput (done ++ (l.map (fun p => BitVec.ofInt 8 p.2) ++ tail)) iPreIdx
        ((sparseLoop iMaxStep i iPreIdx l).map fun e => (BitVec.ofNat 8 e.1, index e.2)) =
      some (done ++ (l.map (fun p => BitVec.ofInt 8 p.1) ++ tail)) := by
  induction l generalizing i iPreIdx done with
  | nil => rfl
  | cons p l ih =>
    obtain ⟨value, zeroQuant⟩ := p
    have hhead : lookup (index value) = some value := hlookup _ List.mem_cons_self
    have hrest := fun iPreIdx (hi : iPreIdx ≤ i + 1) hpre =>
      ih (fun q hq => hlookup q (List.mem_cons_of_mem _ hq)) hi hpre
        (done ++ [BitVec.ofInt 8 value]) (by rw [List.length_append, hdone, List.length_singleton])
    simp only [List.append_assoc, List.singleton_append] at hrest
    simp only [sparseLoop, List.map_cons, List.cons_append]
    by_cases hvalue : value = zeroQuant
    · subst hvalue
      by_cases hfill : i - iPreIdx ≥ iMaxStep
      · simp only [ne_eq, not_true_eq_false, if_false, hfill, if_true, List.nil_append,
          List.singleton_append, List.map_cons]
        rw [scatter_cons hasOutput hi (by omega) hdone hhead, hrest i (by omega) (by omega)]
      · simp only [ne_eq, not_true_eq_false, if_false, hfill, List.nil_append]
        exact hrest iPreIdx (by omega) (by omega)
    · have hfill : ¬ i - i ≥ iMaxStep := by omega
      simp only [ne_eq, hvalue, not_false_eq_true, if_true, hfill, if_false, List.append_nil,
        List.singleton_append, List.map_cons]
      rw [scatter_cons hasOutput hi (by omega) hdone hhead, hrest i (by omega) (by omega)]

/-! ### The table -/

theorem nodup_getWeightSet (bits : ℕ) : (getWeightSet bits).Nodup :=
  List.nodup_range.map fun i j h => by simpa using h

/-- The position of a value in the table. -/
theorem exists_getWeightSet_eq {bits : ℕ} (h₁ : 1 ≤ bits) {v : ℤ}
    (hv : minValue bits ≤ v ∧ v ≤ maxValue bits) :
    ∃ i, ∃ h : i < (getWeightSet bits).length,
      (getWeightSet bits)[i] = v ∧ BitVec.ofNat 8 i = indexByte bits v := by
  have hpow := two_pow_pred h₁
  simp only [minValue, maxValue] at hv
  obtain ⟨i, hi⟩ := Int.eq_ofNat_of_zero_le (show 0 ≤ v + 2 ^ (bits - 1) by omega)
  have hlt : i < 2 ^ bits := by
    have : (i : ℤ) < 2 ^ bits := by omega
    exact_mod_cast this
  refine ⟨i, by rwa [length_getWeightSet], ?_, ?_⟩
  · simp only [getWeightSet, List.getElem_map, List.getElem_range, minValue]
    omega
  · rw [indexByte, hi, BitVec.ofInt_natCast]

theorem mapWeight_eq {bits : ℕ} (h₁ : 1 ≤ bits) {v : ℤ}
    (hv : minValue bits ≤ v ∧ v ≤ maxValue bits) : mapWeight bits v = indexByte bits v := by
  obtain ⟨i, hi, rfl, hindex⟩ := exists_getWeightSet_eq h₁ hv
  rw [mapWeight, if_pos (List.getElem_mem hi), (nodup_getWeightSet bits).idxOf_getElem i hi, hindex]

theorem foldl_insertSimpleSet {l set : List ℤ} (hnodup : (set ++ l).Nodup)
    (hlen : (set ++ l).length ≤ 256) : l.foldl insertSimpleSet set = set ++ l := by
  induction l generalizing set with
  | nil => rw [List.foldl_nil, List.append_nil]
  | cons v l ih =>
    have hv : v ∉ set := by
      intro hv
      exact (List.nodup_append.1 hnodup).2.2 v hv v List.mem_cons_self rfl
    have hset : insertSimpleSet set v = set ++ [v] := by
      rw [List.length_append, List.length_cons] at hlen
      rw [insertSimpleSet, if_neg (by omega), if_neg hv]
    rw [List.foldl_cons, hset, ih (by simpa using hnodup) (by simpa using hlen), List.append_assoc,
      List.singleton_append]

/-- With at most 256 values the keys are distinct. -/
theorem indexMap_eq {uniSet : List ℤ} (hlen : uniSet.length ≤ 256) :
    indexMap uniSet = (List.range uniSet.length).map
      fun i => (BitVec.ofNat 8 i, uniSet.getD i 0) := by
  have key : ∀ n ≤ 256, (List.range n).foldl
      (fun map i => insertMap map (BitVec.ofNat 8 i) (uniSet.getD i 0)) [] =
        (List.range n).map fun i => (BitVec.ofNat 8 i, uniSet.getD i 0) := by
    intro n hn
    induction n with
    | zero => rfl
    | succ n ih =>
      have hnew : BitVec.ofNat 8 n ∉
          ((List.range n).map fun i => (BitVec.ofNat 8 i, uniSet.getD i 0)).map Prod.fst := by
        simp only [List.map_map, List.mem_map, List.mem_range, Function.comp_apply, not_exists,
          not_and]
        intro i hi heq
        have := congrArg BitVec.toNat heq
        simp only [BitVec.toNat_ofNat] at this
        omega
      rw [List.range_succ, List.foldl_append, List.map_append, ih (by omega), List.foldl_cons,
        List.foldl_nil, insertMap, if_neg hnew, if_neg (by simp; omega)]
      rfl
  exact key _ hlen

theorem lookup_indexMap {bits : ℕ} (h₁ : 1 ≤ bits) (h₈ : bits ≤ 8) {v : ℤ}
    (hv : minValue bits ≤ v ∧ v ≤ maxValue bits) :
    List.lookup (indexByte bits v) (indexMap (getWeightSet bits)) = some v := by
  obtain ⟨i, hi, hget, hindex⟩ := exists_getWeightSet_eq h₁ hv
  have hlen : (getWeightSet bits).length ≤ 256 := by
    rw [length_getWeightSet]
    exact Nat.pow_le_pow_right (by omega) h₈
  obtain ⟨m, hm⟩ := Nat.exists_eq_add_of_lt hi
  have hm256 : i + m + 1 ≤ 256 := hm ▸ hlen
  rw [indexMap_eq hlen, List.lookup_eq_some_iff, hm, Nat.add_assoc, List.range_add,
    List.range_succ_eq_map]
  refine ⟨(List.range i).map fun j => (BitVec.ofNat 8 j, (getWeightSet bits).getD j 0),
    (((List.range m).map Nat.succ).map (i + ·)).map
      fun j => (BitVec.ofNat 8 j, (getWeightSet bits).getD j 0), ?_, ?_⟩
  · simp only [List.map_append, List.map_cons, Nat.add_zero, hindex,
      List.getD_eq_getElem _ 0 hi, hget]
  · simp only [List.mem_map, List.mem_range, bne_iff_ne]
    rintro _ ⟨j, hj, rfl⟩ heq
    have := congrArg BitVec.toNat (hindex.trans heq)
    simp only [BitVec.toNat_ofNat] at this
    omega

/-! ### Both forms -/

section Scales

variable {bits : ℕ} (h₂ : 2 ≤ bits) (asymmetricQuantFlag : Bool) {oc blockNum blockSize : ℕ}
  {weightData : List ℚ} (hlen : weightData.length = oc * blockNum * blockSize)

include h₂ hlen

/-- With the computed scales every value is in range. -/
theorem sparseValues_mem :
    ∀ p ∈ sparseValues weightData
        (weightScales bits asymmetricQuantFlag oc blockNum blockSize weightData) blockSize
        (oc * blockNum) asymmetricQuantFlag bits,
      minValue bits ≤ p.1 ∧ p.1 ≤ maxValue bits := by
  simp only [sparseValues, List.mem_map, List.mem_range]
  rintro _ ⟨i, hi, rfl⟩
  have hpos : 0 < blockSize := Nat.pos_of_mul_pos_right (Nat.zero_lt_of_lt hi)
  have hr : i / blockSize < oc * blockNum := Nat.div_lt_of_lt_mul hi
  have hmem := quantValue_weightScales h₂ asymmetricQuantFlag hlen hr (Nat.mod_lt i hpos)
  rw [Nat.div_add_mod' i blockSize] at hmem
  exact hmem

/-- The dense form stores the same values, as its clamp does nothing. -/
theorem denseValues_weightScales :
    denseValues weightData (weightScales bits asymmetricQuantFlag oc blockNum blockSize weightData)
        blockSize (oc * blockNum) asymmetricQuantFlag bits =
      (sparseValues weightData
        (weightScales bits asymmetricQuantFlag oc blockNum blockSize weightData) blockSize
        (oc * blockNum) asymmetricQuantFlag bits).map Prod.fst := by
  rcases Nat.eq_zero_or_pos blockSize with rfl | hpos
  · simp [denseValues, sparseValues]
  · rw [denseValues_eq _ _ _ _ _ _ hpos, sparseValues, List.map_map, Nat.mul_comm]
    refine List.map_congr_left fun i hi => ?_
    obtain ⟨hmin, hmax⟩ := sparseValues_mem h₂ asymmetricQuantFlag hlen _
      (List.mem_map_of_mem hi)
    rw [Function.comp_apply, min_eq_left hmax, max_eq_left hmin]

end Scales

theorem length_weightScales (bits : ℕ) (asymmetricQuantFlag : Bool) (oc blockNum blockSize : ℕ)
    (weightData : List ℚ) :
    (weightScales bits asymmetricQuantFlag oc blockNum blockSize weightData).length =
      (if asymmetricQuantFlag then 2 else 1) * (oc * blockNum) := by
  rw [weightScales_eq]
  simp [List.length_flatMap, length_blockScales, List.map_const', Nat.mul_comm]

/-- The reader fills every channel with the value of zero that the writer compared with. -/
theorem zeros_weightScales (bits : ℕ) (asymmetricQuantFlag : Bool) (oc blockNum blockSize : ℕ)
    (weightData : List ℚ) :
    let alpha := weightScales bits asymmetricQuantFlag oc blockNum blockSize weightData
    let channel := oc * blockNum
    (if alpha.length = 2 * channel then
      (List.range channel).flatMap fun i =>
        List.replicate (channel * blockSize / channel)
          (BitVec.ofInt 8 (zeroQuant bits true alpha i))
      else List.replicate (channel * blockSize) 0) =
      (sparseValues weightData alpha blockSize channel asymmetricQuantFlag bits).map
        fun p => BitVec.ofInt 8 p.2 := by
  intro alpha channel
  have hlen : alpha.length = (if asymmetricQuantFlag then 2 else 1) * channel :=
    length_weightScales ..
  rcases Nat.eq_zero_or_pos channel with hzero | hchannel
  · simp [hzero, sparseValues]
  rw [Nat.mul_div_cancel_left _ hchannel, sparseValues, List.map_map, Nat.mul_comm blockSize]
  cases asymmetricQuantFlag with
  | true =>
    rw [if_pos (by simpa using hlen)]
    rcases Nat.eq_zero_or_pos blockSize with rfl | hpos
    · simp
    rw [← flatMap_range_map]
    refine List.flatMap_congr fun i _ => ?_
    refine (List.eq_replicate_iff.2 ⟨by simp, fun b hb => ?_⟩).symm
    obtain ⟨j, hj, rfl⟩ := List.mem_map.1 hb
    have hdiv : (i * blockSize + j) / blockSize = i := by
      rw [Nat.add_comm, Nat.add_mul_div_right _ _ hpos, Nat.div_eq_of_lt (List.mem_range.1 hj),
        Nat.zero_add]
    rw [Function.comp_apply, hdiv]
  | false =>
    rw [if_neg (by rw [hlen]; simp; omega)]
    refine (List.eq_replicate_iff.2 ⟨by simp, fun b hb => ?_⟩).symm
    obtain ⟨i, -, rfl⟩ := List.mem_map.1 hb
    rfl

/-! ### What the reader finds -/

section Stored

variable {bits : ℕ} (h₂ : 2 ≤ bits)

include h₂

/-- An index into the table of all values has as many bits as a value. -/
theorem dataNeedBits : max (Nat.clog 2 (2 ^ bits)) 1 = bits := by
  rw [Nat.clog_pow 2 bits Nat.one_lt_two]
  omega

/-- What the writer wrote: entries whose steps have `k` bits. -/
theorem exists_sparseBytes {weightData alphaData : List ℚ} {area channel : ℕ}
    {asymmetricQuantFlag : Bool} {out : List Byte × Bool}
    (hout : writeSparseQuanBlobs weightData alphaData area channel asymmetricQuantFlag bits =
      some out) :
    ∃ k, 2 ≤ k ∧ k ≤ 8 ∧ ∃ entries, entries = sparseLoop (2 ^ k - 1) 0 0
        (sparseValues weightData alphaData area channel asymmetricQuantFlag bits) ∧
      entries.length < 256 ^ 4 ∧
      out = sparseBytes area channel bits bits entries.length k entries := by
  simp only [writeSparseQuanBlobs_eq, sparseEntries_eq, length_getWeightSet, dataNeedBits h₂]
    at hout
  generalize sparseValues weightData alphaData area channel asymmetricQuantFlag bits = values
    at *
  rcases hbest : getBestMaxStep bits values with ⟨nnz, k⟩
  rw [hbest] at hout
  by_cases hnnz : nnz = 0
  · simp only [hnnz, if_true] at hout
    exact absurd hout (by simp)
  simp only [hnnz, if_false, Option.some.injEq] at hout
  obtain ⟨hk₂, hk₈, hcount, hsize⟩ := getBestMaxStep_spec hbest hnnz
  rw [getSparsity_eq] at hcount
  have hnnz32 : nnz < 256 ^ 4 := by
    have h₁ := Nat.mul_le_mul_right nnz hk₂
    have h₂ := Nat.mul_le_mul_right nnz h₂
    simp only [bufLen] at hsize
    omega
  subst hcount
  exact ⟨k, hk₂, hk₈, _, rfl, hnnz32, hout.symm⟩

variable (h₈ : bits ≤ 8)

include h₈

/-- The steps come back as they were packed. -/
theorem splitBufToArray_steps (entries : List (ℕ × ℤ)) (hsteps : ∀ e ∈ entries, e.1 < 2 ^ bits) :
    splitBufToArray (fillBuffer (bufLen bits entries.length)
        (entries.map fun e => BitVec.ofNat 8 e.1) bits) entries.length bits =
      entries.map fun e => BitVec.ofNat 8 e.1 := by
  have hfits : ∀ v ∈ entries.map fun e => BitVec.ofNat 8 e.1, v.toNat < 2 ^ bits := by
    simp only [List.mem_map]
    rintro _ ⟨e, he, rfl⟩
    rw [BitVec.toNat_ofNat]
    exact (Nat.mod_le _ _).trans_lt (hsteps e he)
  have hsplit := splitBufToArray_fillBuffer (by omega) h₈ _ hfits
  rwa [List.length_map] at hsplit

/-- So do the indices of values in the table. -/
theorem splitBufToArray_indices (entries : List (ℕ × ℤ))
    (hvalues : ∀ e ∈ entries, minValue bits ≤ e.2 ∧ e.2 ≤ maxValue bits) :
    splitBufToArray (fillBuffer (bufLen bits entries.length)
        (entries.map fun e => mapWeight bits e.2) bits) entries.length bits =
      entries.map fun e => mapWeight bits e.2 := by
  have hfits : ∀ v ∈ entries.map fun e => mapWeight bits e.2, v.toNat < 2 ^ bits := by
    simp only [List.mem_map]
    rintro _ ⟨e, he, rfl⟩
    rw [mapWeight_eq (by omega) (hvalues e he)]
    exact indexByte_lt (by omega) h₈ (hvalues e he)
  have hsplit := splitBufToArray_fillBuffer (by omega) h₈ _ hfits
  rwa [List.length_map] at hsplit

omit h₂ in
/-- The reader's table is that of the writer. -/
theorem foldl_insertSimpleSet_getWeightSet :
    (getWeightSet bits).foldl insertSimpleSet [] = getWeightSet bits := by
  refine foldl_insertSimpleSet (nodup_getWeightSet bits) ?_
  rw [List.nil_append, length_getWeightSet]
  exact Nat.pow_le_pow_right (by omega) h₈

/-- Putting the entries at their places gives all the values. -/
theorem scatter_entries {values : List (ℤ × ℤ)}
    (hmem : ∀ p ∈ values, minValue bits ≤ p.1 ∧ p.1 ≤ maxValue bits) {k : ℕ} (hk₂ : 2 ≤ k)
    (hk₈ : k ≤ 8) (hasOutput : Bool) (blob : List Byte) :
    scatter (fun idx => List.lookup idx (indexMap (getWeightSet bits))) hasOutput
        (store blob (values.map fun p => BitVec.ofInt 8 p.2)) 0
        ((sparseLoop (2 ^ k - 1) 0 0 values).map fun e =>
          (BitVec.ofNat 8 e.1, mapWeight bits e.2)) =
      some (store blob (values.map fun p => BitVec.ofInt 8 p.1)) := by
  have hpow : 2 ^ 2 ≤ 2 ^ k ∧ 2 ^ k ≤ 2 ^ 8 :=
    ⟨Nat.pow_le_pow_right Nat.two_pos hk₂, Nat.pow_le_pow_right Nat.two_pos hk₈⟩
  have hstep : 1 ≤ 2 ^ k - 1 ∧ 2 ^ k - 1 < 256 := by omega
  have hlookup : ∀ p ∈ values, List.lookup (mapWeight bits p.1) (indexMap (getWeightSet bits)) =
      some p.1 := by
    intro p hp
    rw [mapWeight_eq (by omega) (hmem p hp)]
    exact lookup_indexMap (by omega) h₈ (hmem p hp)
  have hscatter := scatter_sparseLoop hstep.1 hstep.2
    (fun idx => List.lookup idx (indexMap (getWeightSet bits))) (mapWeight bits) hasOutput
    (blob.drop values.length) values hlookup le_rfl (Nat.zero_le _) [] rfl
  rw [store, store, List.length_map, List.length_map]
  exact hscatter

end Stored

theorem readSparseQuanData_writeSparseQuanBlobs {bits : ℕ} (h₂ : 2 ≤ bits) (h₈ : bits ≤ 8)
    (asymmetricQuantFlag : Bool) {oc blockNum blockSize : ℕ} {weightData : List ℚ}
    (hlen : weightData.length = oc * blockNum * blockSize) (hchannel : oc * blockNum < 2 ^ 32)
    (harea : blockSize < 2 ^ 32) {out : List Byte × Bool}
    (hout : writeSparseQuanBlobs weightData
      (weightScales bits asymmetricQuantFlag oc blockNum blockSize weightData) blockSize
      (oc * blockNum) asymmetricQuantFlag bits = some out)
    (hasScaleInt forceQuant forceFloat : Bool) (outputPtr : Option (List Byte))
    (result : Int8Common) (rest : List Byte) :
    let alpha := weightScales bits asymmetricQuantFlag oc blockNum blockSize weightData
    let r := readSparseQuanData out.2 hasScaleInt forceQuant forceFloat alpha outputPtr result
      (out.1 ++ rest)
    r.rest = rest ∧ r.len = oc * blockNum * blockSize ∧ ∃ blob, r.blob = some blob ∧
      blob.take (oc * blockNum * blockSize) =
        (sparseValues weightData alpha blockSize (oc * blockNum) asymmetricQuantFlag bits).map
          fun p => BitVec.ofInt 8 p.1 := by
  intro alpha r
  have hmem := sparseValues_mem h₂ asymmetricQuantFlag hlen
  have hzeros := zeros_weightScales bits asymmetricQuantFlag oc blockNum blockSize weightData
  obtain ⟨k, hk₂, hk₈, entries, hentries, hnnz, rfl⟩ := exists_sparseBytes h₂ hout
  have hvalues : (sparseValues weightData alpha blockSize (oc * blockNum) asymmetricQuantFlag
      bits).length = oc * blockNum * blockSize := by
    rw [sparseValues, List.length_map, List.length_range, Nat.mul_comm]
  generalize hv : sparseValues weightData
    (weightScales bits asymmetricQuantFlag oc blockNum blockSize weightData) blockSize
    (oc * blockNum) asymmetricQuantFlag bits = values at *
  have hstep : 1 ≤ 2 ^ k - 1 := Nat.le_sub_one_of_lt (Nat.one_lt_two_pow (by omega))
  have hloop : ∀ e ∈ entries, e.1 ≤ 2 ^ k - 1 ∧ e.2 ∈ values.map Prod.fst := by
    subst hentries
    exact fun e he => mem_sparseLoop hstep (Nat.zero_le _) he
  have hsteps := splitBufToArray_steps hk₂ hk₈ entries fun e he =>
    (hloop e he).1.trans_lt (Nat.sub_one_lt (Nat.two_pow_pos k).ne')
  have hindices := splitBufToArray_indices h₂ h₈ entries fun e he => by
    obtain ⟨p, hp, hpe⟩ := List.mem_map.1 (hloop e he).2
    exact hpe ▸ hmem p hp
  have hdims : ∀ d ∈ [oc * blockNum, blockSize], d < 2 ^ 32 := by
    intro d hd
    rcases List.mem_pair.1 hd with rfl | rfl
    exacts [hchannel, harea]
  have hk : (BitVec.ofNat 8 k).toNat = k := by
    rw [BitVec.toNat_ofNat]
    omega
  have htable : ((getWeightSet bits).map (BitVec.ofInt 8)).length = 2 ^ bits := by
    rw [List.length_map, length_getWeightSet]
  simp only [r, readSparseQuanData, sparseBytes, length_getWeightSet, List.append_assoc]
  rw [readBlobDim_writeBlobDim hdims (by simp)]
  simp only [List.prod_cons, List.prod_nil, Nat.mul_one, List.take_left' (length_toLe 4 _),
    List.drop_left' (length_toLe 4 _), ofLe_toLe hnnz, List.cons_append, List.headD_cons,
    List.tail_cons, hk, List.append_assoc, List.take_left' (length_fillBuffer ..),
    List.drop_left' (length_fillBuffer ..), hsteps, hindices,
    sampleCount_two_pow (by omega : 1 ≤ bits) h₈, List.take_left' htable, List.drop_left' htable,
    map_toInt_getWeightSet (by omega : 1 ≤ bits) h₈, foldl_insertSimpleSet_getWeightSet h₈,
    simpleRank_getWeightSet, dataNeedBits h₂, List.zip_map']
  simp only [alpha, hzeros, hv, hentries, scatter_entries h₂ h₈ hmem hk₂ hk₈, true_and]
  refine ⟨_, rfl, ?_⟩
  rw [store, List.take_left' (by rw [List.length_map, hvalues])]

/-- The sums of the steps from `pos` on: where a reader stops. -/
def stops (pos : ℕ) : List ℕ → List ℕ
  | [] => []
  | step :: steps => (pos + step) :: stops (pos + step) steps

section Positions

variable {α : Type*} (f g : α → ℤ × ℤ)

/-- The count depends on where the values are not zero alone. -/
theorem countLoop_congr (h : ∀ a, (f a).1 = (f a).2 ↔ (g a).1 = (g a).2) (iMaxStep : ℕ) (l : List α)
    (i iPreIdx nnz : ℕ) : countLoop iMaxStep i iPreIdx nnz (l.map f) =
      countLoop iMaxStep i iPreIdx nnz (l.map g) := by
  induction l generalizing i iPreIdx nnz with
  | nil => rfl
  | cons a l ih => simp only [List.map_cons, countLoop, ne_eq, h a, ih]

/-- The stops are weights in their order, with all that are not zero among them, and a weight's own
value is stored at its stop. -/
theorem stops_sparseLoop {iMaxStep : ℕ} (hstep : 1 ≤ iMaxStep) (f : ℕ → ℤ × ℤ) (n : ℕ)
    {i iPreIdx : ℕ} (hpre : iPreIdx ≤ i) :
    let entries := sparseLoop iMaxStep i iPreIdx ((List.range' i n).map f)
    let places := stops iPreIdx (entries.map Prod.fst)
    places.Sublist (List.range' i n) ∧
      ((List.range' i n).filter fun p => (f p).1 ≠ (f p).2).Sublist places ∧
      entries.map Prod.snd = places.map fun p => (f p).1 := by
  induction n generalizing i iPreIdx with
  | zero => exact ⟨List.nil_sublist _, List.nil_sublist _, rfl⟩
  | succ n ih =>
    obtain ⟨hkeep₁, hkeep₂, hkeep₃⟩ := ih (i := i + 1) (hpre.trans (Nat.le_succ i))
    obtain ⟨hstop₁, hstop₂, hstop₃⟩ := ih (i := i + 1) (Nat.le_succ i)
    have hadd : iPreIdx + (i - iPreIdx) = i := Nat.add_sub_of_le hpre
    simp only [List.range'_succ, List.map_cons]
    rcases hf : f i with ⟨value, zeroQuant⟩
    simp only [sparseLoop, List.filter_cons, hf]
    by_cases hvalue : value = zeroQuant
    · by_cases hfill : i - iPreIdx ≥ iMaxStep
      · -- a filler
        simp only [hvalue, ne_eq, not_true_eq_false, if_false, hfill, if_true, List.nil_append,
          List.singleton_append, List.map_cons, stops, hadd, decide_false, Bool.false_eq_true, hf]
        exact ⟨hstop₁.cons_cons i, hstop₂.cons i, congrArg _ hstop₃⟩
      · simp only [hvalue, ne_eq, not_true_eq_false, if_false, hfill, List.nil_append,
          decide_false, Bool.false_eq_true]
        exact ⟨hkeep₁.cons i, hkeep₂, hkeep₃⟩
    · -- a stored weight, behind which no filler is due
      have hfill : ¬ i - i ≥ iMaxStep := by omega
      simp only [ne_eq, hvalue, not_false_eq_true, if_true, hfill, if_false, List.append_nil,
        List.singleton_append, List.map_cons, stops, hadd, decide_true, hf]
      exact ⟨hstop₁.cons_cons i, hstop₂.cons_cons i, congrArg _ hstop₃⟩

end Positions

/-- Whether a weight has the value of zero does not depend on the bits. -/
theorem quantValue_eq_zeroQuant_iff (bits bits' : ℕ) (asymmetricQuantFlag : Bool)
    (alphaData : List ℚ) (i : ℕ) (weight : ℚ) :
    quantValue bits asymmetricQuantFlag alphaData i weight =
        zeroQuant bits asymmetricQuantFlag alphaData i ↔
      quantValue bits' asymmetricQuantFlag alphaData i weight =
        zeroQuant bits' asymmetricQuantFlag alphaData i := by
  cases asymmetricQuantFlag with
  | false => rfl
  | true =>
    simp only [quantValue, zeroQuant, quantAsym, if_true]
    split_ifs
    · rw [add_left_inj, add_left_inj]
    · exact iff_of_true rfl rfl

section Entries

variable {weightData alphaData : List ℚ} {area channel : ℕ} {asymmetricQuantFlag : Bool} {bits : ℕ}

/-- What holds of the entries for a choice of step bits. -/
theorem steps_of_choice {iDataNeedBits : ℕ} {best : ℕ × ℕ} {entries : List (ℕ × ℤ)}
    (hentries : entries = if best.1 = 0 then []
      else sparseLoop (2 ^ best.2 - 1) 0 0
        (sparseValues weightData alphaData area channel asymmetricQuantFlag bits))
    (hspec : best.1 ≠ 0 → IsStepChoice iDataNeedBits
      (sparseValues weightData alphaData area channel asymmetricQuantFlag iDataNeedBits)
      best.1 best.2) :
    let value := fun p => quantValue bits asymmetricQuantFlag alphaData (p / area)
      (weightData.getD p 0)
    let places := stops 0 (entries.map Prod.fst)
    entries.length = best.1 ∧ (∀ e ∈ entries, e.1 ≤ 2 ^ best.2 - 1 ∧ e.1 < 256) ∧
      places.Pairwise (· < ·) ∧ (∀ p ∈ places, p < area * channel) ∧
      entries.map Prod.snd = places.map value ∧
      (best.1 ≠ 0 → ((List.range (area * channel)).filter fun p =>
        value p ≠ zeroQuant bits asymmetricQuantFlag alphaData (p / area)).Sublist places) := by
  intro value places
  by_cases hnnz : best.1 = 0
  · rw [if_pos hnnz] at hentries
    simp only [places, hentries, hnnz, stops, List.map_nil, List.length_nil]
    exact ⟨trivial, nofun, .nil, nofun, trivial, fun h0 => absurd rfl h0⟩
  rw [if_neg hnnz] at hentries
  obtain ⟨hk₂, hk₈, hcount, -⟩ := hspec hnnz
  have hpow : 2 ^ 2 ≤ 2 ^ best.2 ∧ 2 ^ best.2 ≤ 2 ^ 8 :=
    ⟨Nat.pow_le_pow_right Nat.two_pos hk₂, Nat.pow_le_pow_right Nat.two_pos hk₈⟩
  have hstep : 1 ≤ 2 ^ best.2 - 1 ∧ 2 ^ best.2 - 1 < 256 := by omega
  -- the count is taken with other bits, which changes no comparison with zero
  have hlength : entries.length = best.1 := by
    rw [hentries, hcount, ← getSparsity_eq, getSparsity, getSparsity]
    exact countLoop_congr _ _ (fun p => quantValue_eq_zeroQuant_iff bits iDataNeedBits
      asymmetricQuantFlag alphaData (p / area) (weightData.getD p 0)) _ _ _ _ _
  obtain ⟨hplaces, hnonzero, hvalues⟩ := stops_sparseLoop hstep.1
    (fun p => (value p, zeroQuant bits asymmetricQuantFlag alphaData (p / area)))
    (area * channel) (le_refl 0)
  rw [← List.range_eq_range'] at hplaces hnonzero hvalues
  change entries = sparseLoop _ 0 0 (List.map _ _) at hentries
  rw [← hentries] at hplaces hnonzero hvalues
  refine ⟨hlength, fun e he => ?_, ?_, ?_, hvalues, fun _ => hnonzero⟩
  · rw [hentries] at he
    have hle := (mem_sparseLoop hstep.1 (Nat.zero_le _) he).1
    exact ⟨hle, hle.trans_lt hstep.2⟩
  · exact List.Pairwise.sublist hplaces List.pairwise_lt_range
  · exact fun p hp => List.mem_range.1 (hplaces.subset hp)

end Entries

end Mnn.Idst
