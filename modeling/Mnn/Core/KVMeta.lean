import Mathlib.Tactic

/-!
# The key/value meta record shared by the language model and the attention backend

`KVMeta` is declared twice in the sources, in `transformers/llm/engine/src/kvmeta.hpp` for the host
and in `source/core/OpCommonUtils.hpp` for the backends; both sides look at one object.  The host
writes what the next forward has to do with the cache (`remove`, `reserve`, `add`), the attention
layers act on it, and `sync` folds it into `previous` afterwards.

* `KVMeta`, `sync` (`llm.cpp`), `computeReverseSize` (`OpCommonUtils.hpp`);
* `reallocLength`, the length that `KVCacheManager::onRealloc` leaves, and `attentionLength`, the
  length of the cache after `CPUAttention::onExecute`.

Lengths are natural numbers.  Every subtraction of the code takes `remove` from something at least
as large, which `Llm.forwards_remove_le_previous` proves for the runs of the host.
-/

namespace Mnn

/-- The pair array `reserve` of length `n_reserve` is a list of pairs `(begin, size)`. -/
structure KVMeta where
  previous : ℕ := 0
  remove : ℕ := 0
  reserve : List (ℕ × ℕ) := []
  add : ℕ := 0
  deriving DecidableEq, Repr

namespace KVMeta

/-- The sum of the reserved sizes (`revertNumber` in `KVMeta::sync`). -/
def reserveSize (m : KVMeta) : ℕ := (m.reserve.map Prod.snd).sum

/-- `KVMeta::sync`. -/
def sync (m : KVMeta) : KVMeta :=
  { previous := m.previous - m.remove + m.add + m.reserveSize
    remove := 0
    reserve := []
    add := 0 }

/-- `KVMeta::computeReverseSize`: `-1` as soon as one reserved unit is empty. -/
def computeReverseSize (m : KVMeta) : ℤ :=
  if m.reserve.any (fun r => r.2 = 0) then -1 else m.reserveSize

@[simp] theorem sync_remove (m : KVMeta) : m.sync.remove = 0 := rfl

@[simp] theorem sync_reserve (m : KVMeta) : m.sync.reserve = [] := rfl

@[simp] theorem sync_previous (m : KVMeta) :
    m.sync.previous = m.previous - m.remove + m.add + m.reserveSize := rfl

/-- Without empty units the backend reserves what `sync` counts. -/
theorem computeReverseSize_eq {m : KVMeta} (h : ∀ r ∈ m.reserve, r.2 ≠ 0) :
    m.computeReverseSize = m.reserveSize := by
  have hany : m.reserve.any (fun r => r.2 = 0) = false := by
    simpa [List.any_eq_false] using h
  simp [computeReverseSize, hany]

end KVMeta

/-- The value of `mPastLength` after `KVCacheManager::onRealloc`: the removal is taken off and the
loop over the reserved ranges adds each size to `dstStart`, in either of its two branches. -/
def reallocLength (m : KVMeta) (past : ℕ) : ℕ :=
  m.reserve.foldl (fun dstStart r => dstStart + r.2) (past - m.remove)

theorem reallocLength_eq (m : KVMeta) (past : ℕ) :
    reallocLength m past = past - m.remove + m.reserveSize := by
  have key : ∀ (l : List (ℕ × ℕ)) (d : ℕ),
      l.foldl (fun dstStart r => dstStart + r.2) d = d + (l.map Prod.snd).sum := by
    intro l
    induction l with
    | nil => intro d; rfl
    | cons r l ih => intro d; rw [List.foldl_cons, ih, List.map_cons, List.sum_cons]; omega
  exact key m.reserve _

/-- The cache length after `CPUAttention::onExecute` on `seqLen` new tokens, for a layer with a
cache and a meta record: clear and allocate when everything is to be removed, reallocate otherwise,
then push the new keys and values. -/
def attentionLength (m : KVMeta) (past seqLen : ℕ) : ℕ :=
  if m.previous = m.remove then 0 + seqLen else reallocLength m past + seqLen

end Mnn
