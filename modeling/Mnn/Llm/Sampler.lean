import Mnn.Lib.Heap
import Mathlib.Algebra.Order.Field.Basic

/-!
# Samplers

`Sampler` (`transformers/llm/engine/src/sampler.cpp`) over exact numbers.  `none` is a run that
leaves a vector, asks an empty heap for its top, or makes a vector of a negative size.

* `Library`: heaps, sorting, the softmax of a row and the logarithm;
* `topK`, `topP`, `minP`, `tfs`, `typical`, `penalty`: the samplers;
* `configSampler`, `mixed`, `handleSelect`, `sample`: a sampler's configuration and one run of it.
-/

namespace Mnn.Sampler

open Lib

structure IndexScore (R : Type) where
  index : ℕ
  score : R

/-- What the samplers use of the standard library and of the tensor library. -/
structure Library (R : Type) [Field R] [LinearOrder R] where
  /-- A heap with `IndexScoreCmpGreater`. -/
  ascending : HeapOps (IndexScore R) fun a b => a.score < b.score
  /-- A heap with `IndexScoreCmpLess`. -/
  descending : HeapOps (IndexScore R) fun a b => b.score < a.score
  /-- `std::sort` with `IndexScoreCmpGreater`. -/
  sort : List (IndexScore R) → List (IndexScore R)
  sort_perm : ∀ l, (sort l).Perm l
  sort_sorted : ∀ l, (sort l).Pairwise fun a b => b.score ≤ a.score
  /-- The softmax of a row divided by the temperature. -/
  softmax : R → List R → List R
  length_softmax : ∀ t l, (softmax t l).length = l.length
  softmax_pos : ∀ t l, t ≠ 0 → ∀ x ∈ softmax t l, 0 < x
  sum_softmax : ∀ t l, t ≠ 0 → l ≠ [] → (softmax t l).sum = 1
  log : R → R

attribute [simp] Library.length_softmax

section ListLibrary

instance : IsStrictOrder (IndexScore ℚ) fun a b => a.score < b.score where
  irrefl a := lt_irrefl a.score
  trans _ _ _ := lt_trans

instance : IsStrictOrder (IndexScore ℚ) fun a b => b.score < a.score where
  irrefl a := lt_irrefl a.score
  trans _ _ _ h h' := lt_trans h' h

/-- A library on lists.  Its softmax is that of equal logits, and its logarithm is exact at one. -/
def listLibrary : Library ℚ where
  ascending := listHeap _
  descending := listHeap _
  sort := List.insertionSort fun a b => b.score ≤ a.score
  sort_perm := List.perm_insertionSort _
  sort_sorted := fun l =>
    haveI : Std.Total fun a b : IndexScore ℚ => b.score ≤ a.score := ⟨fun a b => le_total ..⟩
    haveI : IsTrans (IndexScore ℚ) fun a b => b.score ≤ a.score := ⟨fun _ _ _ h h' => h'.trans h⟩
    List.pairwise_insertionSort _ l
  softmax := fun _ l => l.map fun _ => 1 / (l.length : ℚ)
  length_softmax := fun _ _ => List.length_map _
  softmax_pos := fun t l _ x hx => by
    obtain ⟨y, hy, rfl⟩ := List.mem_map.1 hx
    exact one_div_pos.2 (Nat.cast_pos.2 (List.length_pos_of_mem hy))
  sum_softmax := fun t l _ hl => by
    rw [List.map_const', List.sum_replicate, nsmul_eq_mul]
    exact mul_one_div_cancel (Nat.cast_ne_zero.2 (mt List.length_eq_zero_iff.1 hl))
  log := fun x => x - 1

end ListLibrary

/-- A tensor: its last dimension and its numbers. -/
structure Logits (R : Type) where
  cols : ℕ
  data : List R

structure SubsetLogits (R : Type) where
  index : List ℕ
  logits : Logits R
  isSubset : Bool

/-- The names in a list of mixed samplers.  A list that names `mixed` again does not end its own
configuration and is left out. -/
inductive Stage
  | greedy | temperature | topK | topP | minP | tfs | typical | penalty | other
  deriving DecidableEq

inductive SamplerType
  | single (stage : Stage)
  | mixed

inductive SelectType
  | greedy | temperature | other

/-- The sampler's part of `LlmConfig`. -/
structure LlmConfig (R : Type) where
  temperature : R
  topK : ℤ
  topP : R
  minP : R
  tfsZ : R
  typical : R
  penalty : R
  ngram : ℤ
  ngramFactor : R
  penaltySampler : SelectType
  mixedSamplers : List Stage

structure SamplerConfig (R : Type) where
  selectType : SelectType
  temperature : R
  topK : ℤ
  topP : R
  minP : R
  tfsZ : R
  typical : R
  penalty : R
  ngram : ℤ
  ngramFactor : R
  maxPenalty : R
  mixedSamplers : List Stage

/-- What `LlmConfig` answers where nothing is configured. -/
def LlmConfig.initial (R : Type) [Field R] : LlmConfig R where
  temperature := 1
  topK := 40
  topP := 9 / 10
  minP := 1 / 10
  tfsZ := 1
  typical := 1
  penalty := 0
  ngram := 8
  ngramFactor := 1
  penaltySampler := .greedy
  mixedSamplers := [.topK, .tfs, .typical, .topP, .other, .temperature]

/-- `SamplerConfig` before it is configured. -/
def SamplerConfig.initial (R : Type) [Field R] : SamplerConfig R where
  selectType := .temperature
  temperature := 4 / 5
  topK := 40
  topP := 9 / 10
  minP := 1 / 20
  tfsZ := 1
  typical := 19 / 20
  penalty := 21 / 20
  ngram := 8
  ngramFactor := 51 / 50
  maxPenalty := 10
  mixedSamplers := [.topK, .tfs, .typical, .topP, .other, .temperature]

variable {R : Type} [Field R] [LinearOrder R] (lib : Library R) (mConfig : SamplerConfig R)

/-! ### Subsets -/

/-- `createSubsetLogits(logits)`. -/
def createLogits (logits : Logits R) : SubsetLogits R :=
  { index := [], logits, isSubset := false }

/-- `createSubsetLogits(scores, index)`. -/
def createSubsetLogits (scores : List R) (index : List ℕ) : SubsetLogits R :=
  { index, logits := { cols := index.length, data := scores }, isSubset := true }

def transformIndex (superset subset : SubsetLogits R) : Option (SubsetLogits R) :=
  if superset.isSubset then
    (subset.index.mapM fun id => superset.index[id]?).map fun index => { subset with index }
  else some subset

/-- `_TempratureSoftmax`: over the last dimension. -/
def tempratureSoftmax (logits : Logits R) (temperature : R) : Logits R :=
  { cols := logits.cols
    data := (List.range (logits.data.length / logits.cols)).flatMap fun i =>
      lib.softmax temperature ((logits.data.drop (i * logits.cols)).take logits.cols) }

/-- Every score with its index. -/
def enumerate (scores : List R) : List (IndexScore R) :=
  scores.mapIdx fun index score => { index, score }

def packSoftmax (logits : Logits R) (temperature : R) : List (IndexScore R) :=
  enumerate (tempratureSoftmax lib logits temperature).data

/-- The end of `topP`, `minP`, `tfs` and `typical`: the scores of what was taken, and its ids. -/
def take (superset : SubsetLogits R) (out : List (IndexScore R)) : Option (SubsetLogits R) := do
  let scores ← out.mapM fun m => superset.logits.data[m.index]?
  transformIndex superset (createSubsetLogits scores (out.map (·.index)))

/-! ### The filters -/

/-- One score in the first loop of `topK`; a negative `K` compares as a large unsigned number. -/
def keep (K : ℤ) (heap : lib.ascending.Heap) (m : IndexScore R) : Option lib.ascending.Heap :=
  if K < 0 ∨ lib.ascending.size heap < K then some (lib.ascending.push heap m)
  else
    match lib.ascending.pop heap with
    | none => none
    | some (top, rest) => some (if top.score < m.score then lib.ascending.push rest m else heap)

def topK (superset : SubsetLogits R) : Option (SubsetLogits R) := do
  let heap ← (enumerate superset.logits.data).foldlM (keep lib mConfig.topK) lib.ascending.empty
  if mConfig.topK < 0 then none
  else
    let popped ← lib.ascending.pops mConfig.topK.toNat heap
    transformIndex superset
      (createSubsetLogits (popped.reverse.map (·.score)) (popped.reverse.map (·.index)))

/-- The loop of `topP`; every round pops one element. -/
def topPLoop (p : R) : ℕ → lib.descending.Heap → R → List (IndexScore R) → List (IndexScore R)
  | 0, _, _, out => out
  | fuel + 1, heap, cumulative, out =>
    if cumulative < p then
      match lib.descending.pop heap with
      | none => out
      | some (m, rest) => topPLoop p fuel rest (cumulative + m.score) (out ++ [m])
    else out

def topP (superset : SubsetLogits R) : Option (SubsetLogits R) :=
  let indexScores := packSoftmax lib superset.logits mConfig.temperature
  take superset <|
    topPLoop lib mConfig.topP indexScores.length (lib.descending.make indexScores) 0 []

/-- The loops of `minP` and `typical`: pop, add to the sum, and stop at the cut unless nothing was
taken yet. -/
def cutLoop {before : IndexScore R → IndexScore R → Prop} (H : HeapOps (IndexScore R) before)
    (add : R → IndexScore R → Option R) (cut : R → IndexScore R → Bool) :
    ℕ → H.Heap → R → List (IndexScore R) → Option (List (IndexScore R))
  | 0, _, _, out => some out
  | n + 1, heap, cumulative, out =>
    match H.pop heap with
    | none => none
    | some (m, rest) => do
      let cumulative ← add cumulative m
      if cut cumulative m ∧ out ≠ [] then some out
      else cutLoop H add cut n rest cumulative (out ++ [m])

def minP (superset : SubsetLogits R) : Option (SubsetLogits R) := do
  let indexScores := packSoftmax lib superset.logits mConfig.temperature
  let out ← cutLoop lib.descending (fun cumulative _ => some cumulative)
    (fun _ m => m.score < mConfig.minP) indexScores.length (lib.descending.make indexScores) 0 []
  take superset out

/-- The derivatives behind a difference `first`. -/
def derivatives : R → List (IndexScore R) → List R
  | first, a :: b :: l =>
    let second := a.score - b.score
    |first - second| :: derivatives second (b :: l)
  | _, _ => []

/-- The last loop of `tfs`.  Where the derivatives add up to zero, the normalized ones are no
numbers and compare as false. -/
def tfsLoop (z sum : R) : List (IndexScore R × R) → R → List (IndexScore R) → List (IndexScore R)
  | [], _, out => out
  | (m, derivative) :: l, cumulative, out =>
    let cumulative := cumulative + derivative * (1 / sum)
    if sum ≠ 0 ∧ z ≤ cumulative ∧ out ≠ [] then out
    else tfsLoop z sum l cumulative (out ++ [m])

def tfs (superset : SubsetLogits R) : Option (SubsetLogits R) := do
  let indexScores := lib.sort (packSoftmax lib superset.logits mConfig.temperature)
  guard (2 ≤ indexScores.length)
  let a ← indexScores[0]?
  let b ← indexScores[1]?
  let _ ← indexScores[2]?
  let derivatives := derivatives (a.score - b.score) indexScores.tail
  take superset <| tfsLoop mConfig.tfsZ derivatives.sum (indexScores.zip derivatives) 0 []

def typical (superset : SubsetLogits R) : Option (SubsetLogits R) := do
  let probs := (tempratureSoftmax lib superset.logits mConfig.temperature).data
  let entropy := probs.foldl (fun entropy p => entropy - p * lib.log p) 0
  let indexScores := enumerate (probs.map fun p => |entropy + lib.log p|)
  let out ← cutLoop lib.ascending (fun cumulative m => probs[m.index]?.map (cumulative + ·))
    (fun cumulative _ => mConfig.typical ≤ cumulative) indexScores.length
    (lib.ascending.make indexScores) 0 []
  take superset out

/-! ### The penalty -/

/-- The inner loop of `penalty`, from `prev[j - 1]` backwards. -/
def ngramPenalty (prev ngramInfo : List ℤ) : ℕ → ℕ → R → Option R
  | 0, _, penalty => some penalty
  | j + 1, idx, penalty =>
    if idx + 1 < mConfig.ngram then do
      let token ← prev[j]?
      let info ← ngramInfo[idx]?
      if token ≠ info then some penalty
      else
        ngramPenalty prev ngramInfo j (idx + 1)
          (if idx + 1 = ngramInfo.length then mConfig.maxPenalty else penalty * mConfig.ngramFactor)
    else some penalty

/-- One token of the history enters `penalty_map`. -/
def addPenalty (penalty : R) (prev ngramInfo : List ℤ) (map : ℤ → Option R) (i : ℕ) :
    Option (ℤ → Option R) := do
  let token ← prev[i]?
  let map := if map token = none then Function.update map token (some penalty) else map
  if 1 < mConfig.ngramFactor then
    let p ← ngramPenalty mConfig prev ngramInfo i 0 penalty
    some (if (map token).getD 0 < p then Function.update map token (some p) else map)
  else some map

/-- The last loop of `penalty`. -/
def penalize (map : ℤ → Option R) (scores : List R) : List R :=
  scores.mapIdx fun i score =>
    match map i with
    | none => score
    | some p => if 0 ≤ score then score / p else score * p

/-- `penalty`; the tokens of the history are the keys of its map. -/
def penalty (prev : List ℤ) (subset : SubsetLogits R) : Option (SubsetLogits R) :=
  if mConfig.penalty ≤ 1 then some subset
  else do
    guard (1 ≤ mConfig.ngram)
    let ngramInfo ← (List.range (mConfig.ngram - 1).toNat).mapM fun n =>
      if 1 < mConfig.ngramFactor then prev.reverse[n]? else some 0
    let map ← (List.range prev.length).foldlM
      (addPenalty mConfig (min mConfig.penalty mConfig.maxPenalty) prev ngramInfo) fun _ => none
    guard (∀ token ∈ prev, 0 ≤ token ∧ token < subset.logits.data.length)
    some { subset with
      logits := { cols := subset.logits.cols, data := penalize map subset.logits.data } }

/-! ### One run -/

/-- `subsetSampler`, for one sampler. -/
def subsetSampler (prev : List ℤ) : Stage → SubsetLogits R → Option (SubsetLogits R)
  | .penalty => penalty mConfig prev
  | .topK => topK lib mConfig
  | .topP => topP lib mConfig
  | .minP => minP lib mConfig
  | .tfs => tfs lib mConfig
  | .typical => typical lib mConfig
  | .greedy | .temperature | .other => some

def mixed (prev : List ℤ) (subset : SubsetLogits R) : Option (SubsetLogits R) :=
  mConfig.mixedSamplers.foldlM (fun subset stage => subsetSampler lib mConfig prev stage subset)
    subset

/-- `select`, and the end of `reSoftmaxSelect`. -/
def select (subset : SubsetLogits R) (id : ℤ) : Option ℤ :=
  if subset.isSubset then
    if 0 ≤ id then subset.index[id.toNat]?.map Nat.cast else none
  else some id

def argmaxSelect (superset : SubsetLogits R) : Option ℤ := do
  let first ← superset.logits.data[0]?
  let best ← (List.range superset.logits.cols).foldlM (fun (best : R × ℕ) i => do
    let score ← superset.logits.data[i]?
    some (if best.1 < score then (score, i) else best)) (first, 0)
  select superset best.2

/-- The loop of `randomSelect`, from index `i` on. -/
def randomSelectFrom (target : R) : ℕ → R → List R → ℤ
  | i, _, [] => i - 1
  | i, cumulative, p :: probs =>
    if target < cumulative + p then i else randomSelectFrom target (i + 1) (cumulative + p) probs

/-- `randomSelect`, with the number it draws. -/
def randomSelect (target : R) (probs : List R) : ℤ := randomSelectFrom target 0 0 probs

def reSoftmaxSelect (target : R) (subset : SubsetLogits R) (temperature : R) : Option ℤ :=
  select subset (randomSelect target (tempratureSoftmax lib subset.logits temperature).data)

def handleSelect (target : R) (subset : SubsetLogits R) : Option ℤ :=
  match mConfig.selectType with
  | .greedy => argmaxSelect subset
  | .temperature => reSoftmaxSelect lib target subset mConfig.temperature
  | .other => some 0

/-- `Sampler::sample`, with the history and the number it draws. -/
def sample (type : SamplerType) (prev : List ℤ) (target : R) (logits : Logits R) : Option ℤ := do
  let subset ← match type with
    | .single stage => subsetSampler lib mConfig prev stage (createLogits logits)
    | .mixed => mixed lib mConfig prev (createLogits logits)
  handleSelect lib mConfig target subset

/-! ### The configuration -/

variable (llmConfig : LlmConfig R)

/-- `configSampler`, for one sampler. -/
def configStage (stage : Stage) : SamplerConfig R :=
  let temperature := llmConfig.temperature
  match stage with
  | .greedy => { mConfig with selectType := .greedy }
  | .temperature => { mConfig with temperature, selectType := .temperature }
  | .topK => { mConfig with topK := llmConfig.topK, selectType := .temperature }
  | .topP => { mConfig with topP := llmConfig.topP, temperature, selectType := .temperature }
  | .minP => { mConfig with minP := llmConfig.minP, temperature, selectType := .temperature }
  | .tfs => { mConfig with tfsZ := llmConfig.tfsZ, temperature, selectType := .temperature }
  | .typical =>
    { mConfig with typical := llmConfig.typical, temperature, selectType := .temperature }
  | .penalty =>
    { mConfig with
      penalty := llmConfig.penalty
      ngram := llmConfig.ngram
      ngramFactor := llmConfig.ngramFactor
      selectType := llmConfig.penaltySampler }
  | .other => mConfig

/-- The penalty comes first. -/
def penaltyFirst (stages : List Stage) : List Stage :=
  let newSamplers := stages.filter (· ≠ .penalty)
  if .penalty ∈ stages then .penalty :: newSamplers else newSamplers

/-- `configMixed`; a list without a last sampler is left at `back()`. -/
def configMixed : Option (SamplerConfig R) := do
  let mConfig :=
    llmConfig.mixedSamplers.foldl (fun mConfig => configStage mConfig llmConfig) mConfig
  let mixedSamplers := penaltyFirst llmConfig.mixedSamplers
  let last ← mixedSamplers.getLast?
  some { mConfig with
    mixedSamplers
    selectType := if last = .greedy then .greedy else .temperature }

/-- `configSampler`. -/
def configSampler : SamplerType → Option (SamplerConfig R)
  | .single stage => some (configStage mConfig llmConfig stage)
  | .mixed => configMixed mConfig llmConfig

end Mnn.Sampler
