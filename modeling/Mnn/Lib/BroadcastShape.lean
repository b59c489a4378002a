import Mathlib.Data.List.GetD
import Mnn.Lib.Broadcast

/-!
# Broadcast shapes

Shapes are aligned at their last axes, and missing axes have length one.

* `extent`: the length of an axis of an aligned shape;
* `Compatible`, `broadcastShape`: on every axis the lengths other than one are equal, and the shape
  that they give;
* `IsBroadcast`: what characterizes the shape; `IsBroadcast.eq_broadcastShape`: it is the only one;
* `broadcastShape_congr`: **the order of the shapes does not matter**, nor how often each occurs;
* `IsBroadcast.repeats`, `smallIndex`, `smallAt_eq`: the larger tensor repeats each of the smaller
  ones, and where its elements come from, by their indices.
-/

namespace Lib.Broadcast

/-- The length of axis `i` of a shape aligned to `n` axes. -/
def extent (n : ℕ) (shape : List ℕ) (i : ℕ) : ℕ :=
  (List.replicate (n - shape.length) 1 ++ shape).getD i 1

/-- The number of axes of the longest shape. -/
def rank (shapes : List (List ℕ)) : ℕ := (shapes.map List.length).foldr max 0

/-- On every axis two of the lengths are equal or one of them is one. -/
def Compatible (shapes : List (List ℕ)) : Prop :=
  ∀ s ∈ shapes, ∀ t ∈ shapes, ∀ i < rank shapes,
    extent (rank shapes) s i = 1 ∨ extent (rank shapes) t i = 1 ∨
      extent (rank shapes) s i = extent (rank shapes) t i

instance (shapes : List (List ℕ)) : Decidable (Compatible shapes) :=
  inferInstanceAs (Decidable (∀ s ∈ shapes, ∀ t ∈ shapes, ∀ i < rank shapes, _))

/-- The length other than one of every axis, if there is one. -/
def broadcastShape (shapes : List (List ℕ)) : List ℕ :=
  (List.range (rank shapes)).map fun i =>
    ((shapes.map fun s => extent (rank shapes) s i).find? (· ≠ 1)).getD 1

example : broadcastShape [[3, 1, 5], [4, 1], [1]] = [3, 4, 5] := by decide

theorem length_le_rank {shapes : List (List ℕ)} {s : List ℕ} (h : s ∈ shapes) :
    s.length ≤ rank shapes := by
  induction shapes with
  | nil => exact absurd h List.not_mem_nil
  | cons t shapes ih =>
    rcases List.mem_cons.1 h with rfl | h
    · exact le_max_left _ _
    · exact (ih h).trans (le_max_right _ _)

theorem rank_le {shapes : List (List ℕ)} {n : ℕ} (h : ∀ s ∈ shapes, s.length ≤ n) :
    rank shapes ≤ n := by
  induction shapes with
  | nil => exact Nat.zero_le n
  | cons t shapes ih =>
    obtain ⟨ht, hshapes⟩ := List.forall_mem_cons.1 h
    exact max_le ht (ih hshapes)

theorem rank_congr {shapes shapes' : List (List ℕ)} (h : ∀ s, s ∈ shapes ↔ s ∈ shapes') :
    rank shapes = rank shapes' :=
  le_antisymm (rank_le fun s hs => length_le_rank ((h s).1 hs))
    (rank_le fun s hs => length_le_rank ((h s).2 hs))

theorem extent_of_lt {n i : ℕ} {s : List ℕ} (h : i < n - s.length) : extent n s i = 1 := by
  rw [extent, List.getD_append _ _ _ _ (by rwa [List.length_replicate]),
    List.getD_eq_getElem _ _ (by rwa [List.length_replicate]), List.getElem_replicate]

theorem extent_of_le {n i : ℕ} {s : List ℕ} (h : n - s.length ≤ i) :
    extent n s i = s.getD (i - (n - s.length)) 1 := by
  rw [extent, List.getD_append_right _ _ _ _ (by rwa [List.length_replicate]),
    List.length_replicate]

/-- The shape covers all others, and every length is that of one of them. -/
structure IsBroadcast (shapes : List (List ℕ)) (out : List ℕ) : Prop where
  length_le : ∀ s ∈ shapes, s.length ≤ out.length
  extent : ∀ s ∈ shapes, ∀ i < out.length,
    extent out.length s i = 1 ∨ extent out.length s i = out.getD i 1
  attained : ∀ i < out.length, ∃ s ∈ shapes, Broadcast.extent out.length s i = out.getD i 1

theorem IsBroadcast.refl (s : List ℕ) : IsBroadcast [s] s where
  length_le t ht := (congrArg List.length (List.mem_singleton.1 ht)).le
  extent t ht i _ := by
    rw [List.mem_singleton.1 ht, extent_of_le (by omega), Nat.sub_self, Nat.sub_zero]
    exact .inr rfl
  attained i _ := ⟨s, List.mem_singleton_self s, by
    rw [extent_of_le (by omega), Nat.sub_self, Nat.sub_zero]⟩

/-- Only the members count. -/
theorem IsBroadcast.congr {shapes shapes' : List (List ℕ)} (h : ∀ s, s ∈ shapes ↔ s ∈ shapes')
    {out : List ℕ} (hout : IsBroadcast shapes out) : IsBroadcast shapes' out where
  length_le s hs := hout.length_le s ((h s).2 hs)
  extent s hs := hout.extent s ((h s).2 hs)
  attained i hi := by
    obtain ⟨s, hs, heq⟩ := hout.attained i hi
    exact ⟨s, (h s).1 hs, heq⟩

section Unique

variable {shapes : List (List ℕ)} {out : List ℕ} (h : IsBroadcast shapes out)
  (hrank : out.length = rank shapes)

include h hrank

theorem IsBroadcast.compatible : Compatible shapes := by
  intro s hs t ht i hi
  rw [← hrank] at hi ⊢
  have hextent := h.extent s hs i hi
  have hextent' := h.extent t ht i hi
  omega

/-- There is no other shape. -/
theorem IsBroadcast.eq_broadcastShape : out = broadcastShape shapes := by
  refine List.ext_getElem ?_ fun i hi _ => ?_
  · rw [broadcastShape, List.length_map, List.length_range, hrank]
  simp only [broadcastShape, List.getElem_map, List.getElem_range, ← hrank]
  have hget : out.getD i 1 = out[i] := List.getD_eq_getElem _ _ hi
  obtain ⟨s, hs, hattained⟩ := h.attained i hi
  cases hfind : (shapes.map fun s => Broadcast.extent out.length s i).find? (· ≠ 1) with
  | none =>
    rw [List.find?_eq_none] at hfind
    have hone := hfind _ (List.mem_map_of_mem hs)
    rw [decide_eq_true_eq, not_not] at hone
    rw [Option.getD_none, ← hget, ← hattained, hone]
  | some d =>
    have hne : d ≠ 1 := by simpa using List.find?_some hfind
    obtain ⟨t, ht, rfl⟩ := List.mem_map.1 (List.mem_of_find?_eq_some hfind)
    rw [Option.getD_some, ← hget]
    exact ((h.extent t ht i hi).resolve_left hne).symm

end Unique

theorem compatible_congr {shapes shapes' : List (List ℕ)} (h : ∀ s, s ∈ shapes ↔ s ∈ shapes') :
    Compatible shapes ↔ Compatible shapes' := by
  simp only [Compatible, rank_congr h, h]

/-- Compatible shapes have a broadcast shape. -/
theorem Compatible.isBroadcast {shapes : List (List ℕ)} (h : Compatible shapes)
    (hne : shapes ≠ []) : IsBroadcast shapes (broadcastShape shapes) := by
  have hlen : (broadcastShape shapes).length = rank shapes := by
    rw [broadcastShape, List.length_map, List.length_range]
  have hget : ∀ i < rank shapes, (broadcastShape shapes).getD i 1 =
      ((shapes.map fun s => extent (rank shapes) s i).find? (· ≠ 1)).getD 1 := by
    intro i hi
    rw [List.getD_eq_getElem _ _ (hlen.symm ▸ hi)]
    simp only [broadcastShape, List.getElem_map, List.getElem_range]
  refine ⟨fun s hs => hlen.symm ▸ length_le_rank hs, fun s hs i hi => ?_, fun i hi => ?_⟩
  · rw [hlen] at hi ⊢
    rw [hget i hi]
    cases hfind : (shapes.map fun s => extent (rank shapes) s i).find? (· ≠ 1) with
    | none =>
      rw [List.find?_eq_none] at hfind
      have hone := hfind _ (List.mem_map_of_mem hs)
      rw [decide_eq_true_eq, not_not] at hone
      exact .inl hone
    | some d =>
      have hd : d ≠ 1 := by simpa using List.find?_some hfind
      obtain ⟨t, ht, rfl⟩ := List.mem_map.1 (List.mem_of_find?_eq_some hfind)
      exact (h s hs t ht i hi).imp_right fun hor => hor.resolve_left hd
  · rw [hlen] at hi ⊢
    rw [hget i hi]
    cases hfind : (shapes.map fun s => extent (rank shapes) s i).find? (· ≠ 1) with
    | none =>
      obtain ⟨s, hs⟩ := List.exists_mem_of_ne_nil _ hne
      rw [List.find?_eq_none] at hfind
      have hone := hfind _ (List.mem_map_of_mem hs)
      rw [decide_eq_true_eq, not_not] at hone
      exact ⟨s, hs, hone⟩
    | some d =>
      obtain ⟨t, ht, rfl⟩ := List.mem_map.1 (List.mem_of_find?_eq_some hfind)
      exact ⟨t, ht, rfl⟩

/-- **The order does not matter.** -/
theorem broadcastShape_congr {shapes shapes' : List (List ℕ)}
    (h : ∀ s, s ∈ shapes ↔ s ∈ shapes') (hne : shapes ≠ []) (hcompatible : Compatible shapes) :
    broadcastShape shapes = broadcastShape shapes' := by
  refine ((hcompatible.isBroadcast hne).congr h).eq_broadcastShape ?_
  rw [broadcastShape, List.length_map, List.length_range, rank_congr h]

/-! ### Elements -/

/-- No axis of the shape is empty if none of the others is. -/
theorem IsBroadcast.repeats {shapes : List (List ℕ)} {out : List ℕ} (h : IsBroadcast shapes out)
    (hpos : ∀ s ∈ shapes, ∀ d ∈ s, 0 < d) {s : List ℕ} (hs : s ∈ shapes) : Repeats s out where
  length_le := h.length_le s hs
  aligned := by
    have hextent : ∀ t ∈ shapes, ∀ i, 0 < Broadcast.extent out.length t i := by
      intro t ht i
      by_cases hi : i < (List.replicate (out.length - t.length) 1 ++ t).length
      · rw [Broadcast.extent, List.getD_eq_getElem _ _ hi]
        rcases List.mem_append.1 (List.getElem_mem hi) with hmem | hmem
        · rw [List.eq_of_mem_replicate hmem]
          exact Nat.one_pos
        · exact hpos t ht _ hmem
      · rw [Broadcast.extent, List.getD_eq_default _ _ (not_lt.1 hi)]
        exact Nat.one_pos
    intro p hp
    obtain ⟨i, hi, rfl⟩ := List.mem_iff_getElem.1 hp
    rw [pad, List.length_zip] at hi
    have hout : i < out.length := by omega
    have hin : i < (List.replicate (out.length - s.length) 1 ++ s).length := by omega
    have hp1 : (pad s out)[i].1 = Broadcast.extent out.length s i := by
      simp only [pad, List.getElem_zip, Broadcast.extent, List.getD_eq_getElem _ _ hin]
    have hp2 : (pad s out)[i].2 = out.getD i 1 := by
      simp only [pad, List.getElem_zip, List.getD_eq_getElem _ _ hout]
    obtain ⟨t, ht, hattained⟩ := h.attained i hout
    rw [hp1, hp2]
    exact ⟨h.extent s hs i hout, hattained ▸ hextent t ht i⟩

/-- The index in the smaller tensor: axes of length one have one element only. -/
def smallIndex (small i : List ℕ) : List ℕ :=
  List.zipWith (fun d k => if d = 1 then 0 else k) small (i.drop (i.length - small.length))

/-- The address of an index. -/
def addressOf : List ℕ → List ℕ → ℕ
  | _ :: shape, k :: i => k * shape.prod + addressOf shape i
  | _, _ => 0

theorem smallAt_zip (small large i : List ℕ) (h : small.length = large.length)
    (hi : i.length = large.length) : smallAt (small.zip large) i =
      addressOf small (List.zipWith (fun d k => if d = 1 then 0 else k) small i) := by
  induction small generalizing large i with
  | nil => rfl
  | cons d small ih =>
    obtain ⟨b, large, rfl⟩ := List.exists_cons_of_length_eq_add_one h.symm
    obtain ⟨k, i, rfl⟩ := List.exists_cons_of_length_eq_add_one hi
    have hlen : small.length = large.length := Nat.succ.inj h
    rw [List.zip_cons_cons, smallAt, ih large i hlen (Nat.succ.inj hi), List.zipWith_cons_cons,
      addressOf, smallSize, List.map_fst_zip hlen.le]

/-- Axes that only the larger tensor has do not count. -/
theorem smallAt_replicate (k : ℕ) (dims : List (ℕ × ℕ)) (large i : List ℕ)
    (hk : large.length = k) (hi : k ≤ i.length) :
    smallAt ((List.replicate k 1).zip large ++ dims) i = smallAt dims (i.drop k) := by
  induction k generalizing large i with
  | zero => rfl
  | succ k ih =>
    obtain ⟨b, large, rfl⟩ := List.exists_cons_of_length_eq_add_one hk
    obtain ⟨j, i, rfl⟩ : ∃ j i', i = j :: i' :=
      List.exists_cons_of_ne_nil (List.ne_nil_of_length_pos (by omega))
    have hrest := ih large i (Nat.succ.inj hk) (Nat.le_of_succ_le_succ hi)
    rw [List.replicate_succ, List.zip_cons_cons, List.cons_append, smallAt, if_pos rfl,
      Nat.zero_mul, Nat.zero_add, hrest, List.drop_succ_cons]

theorem smallAt_eq {small large i : List ℕ} (h : small.length ≤ large.length)
    (hi : i.length = large.length) :
    smallAt (pad small large) i = addressOf small (smallIndex small i) := by
  set k := large.length - small.length with hk
  have hsplit : pad small large =
      (List.replicate k 1).zip (large.take k) ++ small.zip (large.drop k) := by
    rw [pad, ← hk, ← List.zip_append, List.take_append_drop]
    rw [List.length_replicate, List.length_take]
    omega
  rw [hsplit, smallAt_replicate k _ _ _ (by rw [List.length_take]; omega) (by omega),
    smallAt_zip _ _ _ (by rw [List.length_drop]; omega)
      (by rw [List.length_drop, List.length_drop, hi]), smallIndex, hi]

end Lib.Broadcast
