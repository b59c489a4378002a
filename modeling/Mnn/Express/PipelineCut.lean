import Mnn.Express.PipelineCollect

/-!
# The operators of the submodules

* `Piece`: a submodule is a break, or a list of operators that are none;
* `cut_spec`, `splitSubModuleForShapeConst_spec`: **cutting keeps the operators and their order**.
-/

namespace Mnn.PipelineModule

variable {net : Net}

/-- A submodule before its inputs and outputs are computed. -/
inductive Piece (net : Net) : SubModuleInfo → Prop
  | control (i : ℕ) (h : isBreakOp (net.opAt i) = true) : Piece net (controlOp net i)
  | ops (l : List ℕ) (h : ∀ i ∈ l, isBreakOp (net.opAt i) = false) : Piece net { opList := l }

/-- The submodules have these operators, in this order. -/
structure Cuts (net : Net) (ops : List ℕ) (infos : List SubModuleInfo) : Prop where
  ops : infos.flatMap SubModuleInfo.opList = ops
  piece : ∀ m ∈ infos, Piece net m

theorem cuts_nil : Cuts net [] [] := ⟨rfl, fun _ h => absurd h List.not_mem_nil⟩

theorem Cuts.append {ops ops' : List ℕ} {infos infos' : List SubModuleInfo} (h : Cuts net ops infos)
    (h' : Cuts net ops' infos') : Cuts net (ops ++ ops') (infos ++ infos') := by
  refine ⟨by rw [List.flatMap_append, h.ops, h'.ops], fun m hm => ?_⟩
  rcases List.mem_append.1 hm with hm | hm
  · exact h.piece m hm
  · exact h'.piece m hm

theorem cuts_singleton {m : SubModuleInfo} (h : Piece net m) : Cuts net m.opList [m] := by
  refine ⟨List.flatMap_singleton .., fun m' hm => ?_⟩
  rwa [List.mem_singleton.1 hm]

theorem cuts_ops {l : List ℕ} (h : ∀ i ∈ l, isBreakOp (net.opAt i) = false) :
    Cuts net l [{ opList := l }] := cuts_singleton (.ops l h)

/-! ### Breaks -/

theorem foldl_cutOp (selectOps : List ℕ) {ops : List ℕ} {p : List SubModuleInfo × List ℕ}
    (h : Cuts net ops p.1) (hcur : ∀ i ∈ p.2, isBreakOp (net.opAt i) = false) :
    ∃ ops' : List ℕ, ops' ++ (selectOps.foldl (cutOp net) p).2 = ops ++ p.2 ++ selectOps ∧
      Cuts net ops' (selectOps.foldl (cutOp net) p).1 ∧
      ∀ i ∈ (selectOps.foldl (cutOp net) p).2, isBreakOp (net.opAt i) = false := by
  induction selectOps generalizing ops p with
  | nil => exact ⟨ops, by rw [List.append_nil]; rfl, h, hcur⟩
  | cons i selectOps ih =>
    rw [List.foldl_cons]
    cases hbreak : isBreakOp (net.opAt i) with
    | false =>
      have hstep : cutOp net p i = (p.1, p.2 ++ [i]) := by
        rw [cutOp, hbreak, if_neg Bool.false_ne_true]
      rw [hstep]
      have hcur' : ∀ j ∈ p.2 ++ [i], isBreakOp (net.opAt j) = false := by
        intro j hj
        rcases List.mem_append.1 hj with hj | hj
        · exact hcur j hj
        · rwa [List.mem_singleton.1 hj]
      obtain ⟨ops', heq, hcuts, hrest⟩ := ih (p := (p.1, p.2 ++ [i])) h hcur'
      exact ⟨ops', by rw [heq]; simp, hcuts, hrest⟩
    | true =>
      have hstep : cutOp net p i =
          ((if p.2 ≠ [] then p.1 ++ [{ opList := p.2 }] else p.1) ++ [controlOp net i], []) := by
        rw [cutOp, hbreak, if_pos rfl]
      rw [hstep]
      have hcuts : Cuts net (ops ++ p.2)
          (if p.2 ≠ [] then p.1 ++ [{ opList := p.2 }] else p.1) := by
        split
        · exact h.append (cuts_ops hcur)
        · next hnil => rwa [not_not.1 hnil, List.append_nil]
      obtain ⟨ops', heq, hcuts', hrest⟩ :=
        ih (p := (_, [])) (hcuts.append (cuts_singleton (.control i hbreak)))
          fun j hj => absurd hj List.not_mem_nil
      refine ⟨ops', heq.trans ?_, hcuts', hrest⟩
      change ops ++ p.2 ++ [i] ++ [] ++ selectOps = _
      simp

/-- The breaks cut the operators. -/
theorem cut_spec (net : Net) (selectOps : List ℕ) : Cuts net selectOps (cut net selectOps) := by
  have hnil : ∀ i ∈ ([] : List ℕ), isBreakOp (net.opAt i) = false :=
    fun i hi => absurd hi List.not_mem_nil
  obtain ⟨ops, heq, hcuts, hrest⟩ := foldl_cutOp selectOps (p := ([], [])) cuts_nil hnil
  rw [List.append_nil, List.nil_append] at heq
  rw [cut]
  generalize selectOps.foldl (cutOp net) ([], []) = p at heq hcuts hrest ⊢
  subst heq
  split
  · exact hcuts.append (cuts_ops hrest)
  · next hnil => rwa [not_not.1 hnil, List.append_nil]

/-! ### Operators whose shape needs content -/

theorem foldl_splitAt {opList : List ℕ} (hops : ∀ i ∈ opList, isBreakOp (net.opAt i) = false)
    {breakIndexes : List ℕ} {p : List SubModuleInfo × ℕ} (h : Cuts net (opList.take p.2) p.1)
    (hsorted : breakIndexes.Pairwise (· < ·))
    (hrange : ∀ b ∈ breakIndexes, p.2 ≤ b ∧ b < opList.length) (hle : p.2 ≤ opList.length) :
    Cuts net (opList.take (breakIndexes.foldl (splitAt opList) p).2)
        (breakIndexes.foldl (splitAt opList) p).1 := by
  induction breakIndexes generalizing p with
  | nil => exact h
  | cons b breakIndexes ih =>
    obtain ⟨⟨hpb, hb⟩, hrange⟩ := List.forall_mem_cons.1 hrange
    obtain ⟨hlt, hsorted⟩ := List.pairwise_cons.1 hsorted
    rw [List.foldl_cons]
    refine ih (p := splitAt opList p b) ?_ hsorted (fun b' hb' => ⟨hlt b' hb', (hrange b' hb').2⟩) hb
    have hget : opList.getD b 0 = opList[b] := by simp [hb]
    have hmid : Cuts net (opList.take b) (p.1 ++ if p.2 < b then
        [{ opList := (opList.drop p.2).take (b - p.2) }] else []) := by
      have hsplit : opList.take b = opList.take p.2 ++ (opList.drop p.2).take (b - p.2) := by
        rw [← List.take_add, Nat.add_sub_cancel' hpb]
      rw [hsplit]
      split
      · refine h.append (cuts_ops fun i hi => hops i ?_)
        exact List.mem_of_mem_drop (List.mem_of_mem_take hi)
      · rwa [show b - p.2 = 0 by omega, List.take_zero, List.append_nil, List.append_nil]
    have hone : Cuts net [opList[b]] [{ opList := [opList.getD b 0] }] := by
      rw [hget]
      exact cuts_ops fun i hi => hops i (List.mem_singleton.1 hi ▸ List.getElem_mem hb)
    have htake : opList.take (b + 1) = opList.take b ++ [opList[b]] := by
      rw [List.take_add_one, List.getElem?_eq_getElem hb, Option.toList_some]
    change Cuts net (opList.take (b + 1)) _
    rw [htake]
    exact hmid.append hone

theorem splitOne_spec {m : SubModuleInfo} (h : Piece net m) :
    Cuts net m.opList (splitOne net m) := by
  cases h with
  | control i hbreak => exact cuts_singleton (.control i hbreak)
  | ops l hops =>
    rw [splitOne, if_neg Bool.false_ne_true]
    simp only
    split
    · have hsorted : (findBreakIndex net l).Pairwise (· < ·) :=
        List.pairwise_lt_range.filter _
      have hrange : ∀ b ∈ findBreakIndex net l, 0 ≤ b ∧ b < l.length := fun b hb =>
        ⟨Nat.zero_le b, List.mem_range.1 (List.mem_of_mem_filter hb)⟩
      have hcuts := foldl_splitAt hops (p := ([], 0)) cuts_nil hsorted hrange (Nat.zero_le _)
      generalize (findBreakIndex net l).foldl (splitAt l) ([], 0) = p at hcuts
      nth_rewrite 1 [← List.take_append_drop p.2 l]
      refine hcuts.append ?_
      split
      · exact cuts_ops fun i hi => hops i (List.mem_of_mem_drop hi)
      · next hlen =>
        rw [List.drop_eq_nil_of_le (Nat.not_lt.1 hlen)]
        exact cuts_nil
    · exact cuts_ops hops

/-- **Cutting keeps the operators and their order.** -/
theorem splitSubModuleForShapeConst_spec {ops : List ℕ} {infos : List SubModuleInfo}
    (h : Cuts net ops infos) : Cuts net ops (splitSubModuleForShapeConst net infos) := by
  obtain ⟨rfl, hpiece⟩ := h
  rw [splitSubModuleForShapeConst]
  induction infos with
  | nil => exact cuts_nil
  | cons m infos ih =>
    rw [List.flatMap_cons, List.flatMap_cons]
    exact (splitOne_spec (hpiece m List.mem_cons_self)).append
      (ih fun m' hm' => hpiece m' (List.mem_cons_of_mem m hm'))

end Mnn.PipelineModule
