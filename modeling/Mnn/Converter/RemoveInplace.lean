import Mnn.Converter.Net

/-!
# `RemoveInplace`

The pass that gives the output of an operator that works in place a tensor of its own
(`tools/converter/source/optimizer/postconvert/RemoveInplace.cpp`).

* `inplace`, `renameIndexes`, `State`, `visit`, `onExecute`: the pass;
* `separate`: the operators after the pass, by the renaming of the tensors so far;
* `visit_iterate`: the loop computes them;
* `InOrder`: operators in execution order, apart from those that work in place;
* `produced_separate`, `reads_separate`: **every tensor is written once, and every operator reads
  what it read**;
* `separates_iff`: **declared outputs keep their values exactly if none of them is written in
  place**.
-/

namespace Mnn.Converter.RemoveInplace

open Lib.Dataflow

/-! ### The code -/

/-- `_isSingleInputOutput`, and the same tensor on both sides. -/
def inplace (op : OpT) : Option ℤ :=
  match op.inputIndexes, op.outputIndexes with
  | [originIndex], [outputIndex] => if originIndex = outputIndex then some originIndex else none
  | _, _ => none

/-- The two inner loops, with what is put for an index. -/
def renameIndexes (g : ℤ → ℤ) (op : OpT) : OpT :=
  { op with inputIndexes := op.inputIndexes.map g, outputIndexes := op.outputIndexes.map g }

/-- The variables of the loop; `iter` is at the first operator of `rest`. -/
structure State where
  done : List OpT
  rest : List OpT
  tensorName : List String
  tensorNumber : ℕ

def visit (s : State) : State :=
  match s.rest with
  | [] => s
  | op :: rest =>
    match inplace op with
    | none => { s with done := s.done ++ [op], rest := rest }
    | some originIndex =>
      let tensorName := s.tensorName ++ [op.name]
      let newIndex : ℤ := tensorName.length - 1
      { done := s.done ++ [{ op with outputIndexes := [newIndex] }]
        rest := rest.map (renameIndexes fun t => if t = originIndex then newIndex else t)
        tensorName := tensorName
        tensorNumber := tensorName.length }

def onExecute (net : TensorNetT) : TensorNetT :=
  let s := visit^[net.oplists.length] ⟨[], net.oplists, net.tensorName, net.tensorNumber⟩
  { net with
    oplists := s.done ++ s.rest, tensorName := s.tensorName, tensorNumber := s.tensorNumber }

/-! ### The operators after the pass -/

/-- The operators after the pass: `g` is where the tensors are now, `n` the next new tensor. -/
def separate (g : ℤ → ℤ) (n : ℕ) : List OpT → List OpT
  | [] => []
  | op :: rest =>
    match inplace op with
    | none => renameIndexes g op :: separate g n rest
    | some t =>
      { renameIndexes g op with outputIndexes := [(n : ℤ)] } ::
        separate (Function.update g t n) (n + 1) rest

/-- The names of the new tensors. -/
def newNames (ops : List OpT) : List String :=
  (ops.filter fun op => (inplace op).isSome).map OpT.name

section Cons

variable {g : ℤ → ℤ} {n : ℕ} {op : OpT} {rest : List OpT}

theorem separate_none (h : inplace op = none) :
    separate g n (op :: rest) = renameIndexes g op :: separate g n rest := by
  rw [separate, h]

theorem separate_some {t : ℤ} (h : inplace op = some t) : separate g n (op :: rest) =
    { renameIndexes g op with outputIndexes := [(n : ℤ)] } ::
      separate (Function.update g t n) (n + 1) rest := by
  rw [separate, h]

theorem newNames_none (h : inplace op = none) : newNames (op :: rest) = newNames rest := by
  rw [newNames, List.filter_cons, h]
  rfl

theorem newNames_some {t : ℤ} (h : inplace op = some t) :
    newNames (op :: rest) = op.name :: newNames rest := by
  rw [newNames, List.filter_cons, h]
  rfl

end Cons

theorem inplace_eq_some {op : OpT} {t : ℤ} :
    inplace op = some t ↔ op.inputIndexes = [t] ∧ op.outputIndexes = [t] := by
  rw [inplace]
  constructor
  · intro h
    split at h
    · rename_i a b hins houts
      split_ifs at h with hab
      obtain rfl : a = t := Option.some.inj h
      exact ⟨hins, houts.trans (congrArg (fun c => [c]) hab.symm)⟩
    · cases h
  · rintro ⟨hins, houts⟩
    rw [hins, houts]
    exact if_pos rfl

/-- The indexes of the operators are below `N`. -/
def Below (N : ℕ) (ops : List OpT) : Prop :=
  ∀ op ∈ ops, ∀ t ∈ op.inputIndexes ++ op.outputIndexes, t < N

/-- Tensors are kept apart, and below `n`. -/
structure Renaming (N n : ℕ) (g : ℤ → ℤ) : Prop where
  inj : ∀ t t' : ℤ, t < N → t' < N → g t = g t' → t = t'
  lt : ∀ t : ℤ, t < N → g t < n

namespace Renaming

variable {N n : ℕ} {g : ℤ → ℤ} (h : Renaming N n g)

include h

/-- A tensor moves to the new one. -/
theorem update (t : ℤ) : Renaming N (n + 1) (Function.update g t n) where
  inj := by
    intro a b ha hb hab
    have hga := h.lt a ha
    have hgb := h.lt b hb
    by_cases hat : a = t
    · by_cases hbt : b = t
      · rw [hat, hbt]
      · rw [hat, Function.update_self, Function.update_of_ne hbt] at hab
        omega
    · by_cases hbt : b = t
      · rw [hbt, Function.update_self, Function.update_of_ne hat] at hab
        omega
      · rw [Function.update_of_ne hat, Function.update_of_ne hbt] at hab
        exact h.inj a b ha hb hab
  lt := by
    intro a ha
    have hga := h.lt a ha
    by_cases hat : a = t
    · rw [hat, Function.update_self]
      omega
    · rw [Function.update_of_ne hat]
      omega

/-- An operator works in place exactly if it did before. -/
theorem inplace_rename {op : OpT} (hop : ∀ t ∈ op.inputIndexes ++ op.outputIndexes, t < N) :
    inplace (renameIndexes g op) = (inplace op).map g := by
  obtain ⟨inputIndexes, _, _, outputIndexes, _, _, _⟩ := op
  match inputIndexes, outputIndexes, hop with
  | [], _, _ => rfl
  | _ :: _ :: _, _, _ => rfl
  | [_], [], _ => rfl
  | [_], _ :: _ :: _, _ => rfl
  | [a], [b], hop =>
    have ha : a < N := hop a (List.mem_append_left _ List.mem_cons_self)
    have hb : b < N := hop b (List.mem_append_right _ List.mem_cons_self)
    show (if g a = g b then some (g a) else none) = (if a = b then some a else none).map g
    by_cases hab : a = b
    · rw [if_pos hab, if_pos (congrArg g hab)]
      rfl
    · rw [if_neg hab, if_neg fun hg => hab (h.inj a b ha hb hg)]
      rfl

/-- Renaming the rest once more is renaming it to the new tensor. -/
theorem renameIndexes_comp {op : OpT} (hop : ∀ t ∈ op.inputIndexes ++ op.outputIndexes, t < N)
    {t : ℤ} (ht : t < N) :
    renameIndexes (fun a => if a = g t then (n : ℤ) else a) (renameIndexes g op) =
      renameIndexes (Function.update g t n) op := by
  have hcomp : ∀ a : ℤ, a < N → (if g a = g t then (n : ℤ) else g a) = Function.update g t n a := by
    intro a ha
    by_cases hat : a = t
    · rw [hat, Function.update_self, if_pos rfl]
    · rw [Function.update_of_ne hat, if_neg fun hg => hat (h.inj a t ha ht hg)]
  simp only [renameIndexes, List.map_map]
  congr 1
  · exact List.map_congr_left fun a ha => hcomp a (hop a (List.mem_append_left _ ha))
  · exact List.map_congr_left fun a ha => hcomp a (hop a (List.mem_append_right _ ha))

end Renaming

/-- **The loop renames.** -/
theorem visit_iterate {N : ℕ} {ops : List OpT} (hbelow : Below N ops) {g : ℤ → ℤ}
    {tensorName : List String} (h : Renaming N tensorName.length g) (done : List OpT)
    (tensorNumber : ℕ) : ∃ tensorNumber' : ℕ,
    visit^[ops.length] ⟨done, ops.map (renameIndexes g), tensorName, tensorNumber⟩ =
      ⟨done ++ separate g tensorName.length ops, [], tensorName ++ newNames ops,
        tensorNumber'⟩ := by
  induction ops generalizing g done tensorName tensorNumber with
  | nil =>
    refine ⟨tensorNumber, ?_⟩
    rw [separate, List.append_nil, show newNames [] = [] from rfl, List.append_nil]
    rfl
  | cons op rest ih =>
    obtain ⟨hop, hrest⟩ := List.forall_mem_cons.1 hbelow
    have hin := h.inplace_rename hop
    rw [List.length_cons, Function.iterate_succ_apply]
    cases hplace : inplace op with
    | none =>
      have hvisit : visit ⟨done, (op :: rest).map (renameIndexes g), tensorName, tensorNumber⟩ =
          ⟨done ++ [renameIndexes g op], rest.map (renameIndexes g), tensorName,
            tensorNumber⟩ := by
        rw [hplace] at hin
        simp only [visit, List.map_cons, hin, Option.map_none]
      obtain ⟨k, hk⟩ := ih hrest h (done ++ [renameIndexes g op]) tensorNumber
      refine ⟨k, ?_⟩
      rw [hvisit, hk, separate_none hplace, newNames_none hplace, List.append_assoc]
      rfl
    | some t =>
      have ht : t < N := by
        obtain ⟨hins, -⟩ := inplace_eq_some.1 hplace
        exact hop t (List.mem_append_left _ (hins ▸ List.mem_cons_self))
      have hvisit : visit ⟨done, (op :: rest).map (renameIndexes g), tensorName, tensorNumber⟩ =
          ⟨done ++ [{ renameIndexes g op with outputIndexes := [(tensorName.length : ℤ)] }],
            rest.map (renameIndexes (Function.update g t tensorName.length)),
            tensorName ++ [op.name], tensorName.length + 1⟩ := by
        have hnew : ((tensorName ++ [op.name]).length : ℤ) - 1 = tensorName.length := by
          rw [List.length_append, Nat.cast_add]
          exact add_sub_cancel_right _ _
        have hmap : (rest.map (renameIndexes g)).map
            (renameIndexes fun a => if a = g t then (tensorName.length : ℤ) else a) =
            rest.map (renameIndexes (Function.update g t tensorName.length)) := by
          rw [List.map_map]
          exact List.map_congr_left fun op' hop' => h.renameIndexes_comp (hrest op' hop') ht
        rw [hplace, Option.map_some] at hin
        simp only [visit, List.map_cons, hin]
        rw [show (renameIndexes g op).name = op.name from rfl, hnew, hmap, List.length_append]
        rfl
      have hupdate : Renaming N (tensorName ++ [op.name]).length
          (Function.update g t tensorName.length) := by
        rw [List.length_append]
        exact h.update t
      obtain ⟨k, hk⟩ := ih hrest hupdate _ (tensorName.length + 1)
      refine ⟨k, ?_⟩
      rw [hvisit, hk, separate_some hplace, newNames_some hplace, List.append_assoc,
        List.append_assoc, List.length_append]
      rfl

/-! ### Single assignment -/

/-- The tensors that operators write which do not work in place. -/
def plainOutputs (ops : List OpT) : List ℤ :=
  (ops.filter fun op => (inplace op).isNone).flatMap OpT.outputIndexes

/-- Apart from operators that work in place, every tensor is written once, and after it was written:
no operator writes what an earlier one read. -/
structure InOrder (ops : List OpT) : Prop where
  once : (plainOutputs ops).Nodup
  later : ops.Pairwise fun op op' => inplace op' = none → ∀ t ∈ op'.outputIndexes,
    t ∉ op.inputIndexes

section PlainOutputs

variable {op : OpT} {rest : List OpT}

theorem plainOutputs_none (h : inplace op = none) :
    plainOutputs (op :: rest) = op.outputIndexes ++ plainOutputs rest := by
  rw [plainOutputs, List.filter_cons, h]
  rfl

theorem plainOutputs_some {t : ℤ} (h : inplace op = some t) :
    plainOutputs (op :: rest) = plainOutputs rest := by
  rw [plainOutputs, List.filter_cons, h]
  rfl

theorem mem_plainOutputs {ops : List OpT} {t : ℤ} :
    t ∈ plainOutputs ops ↔ ∃ op ∈ ops, inplace op = none ∧ t ∈ op.outputIndexes := by
  simp only [plainOutputs, List.mem_flatMap, List.mem_filter, Option.isNone_iff_eq_none, and_assoc]

theorem InOrder.tail (h : InOrder (op :: rest)) : InOrder rest := by
  refine ⟨?_, (List.pairwise_cons.1 h.later).2⟩
  cases hplace : inplace op with
  | none => exact (List.nodup_append.1 (plainOutputs_none hplace ▸ h.once)).2.1
  | some t => exact plainOutputs_some hplace ▸ h.once

/-- What an operator reads, no later one writes that does not work in place. -/
theorem InOrder.not_mem_plainOutputs (h : InOrder (op :: rest)) {t : ℤ}
    (ht : t ∈ op.inputIndexes) : t ∉ plainOutputs rest := by
  intro hmem
  obtain ⟨op', hop', hplace, hout⟩ := mem_plainOutputs.1 hmem
  exact (List.pairwise_cons.1 h.later).1 op' hop' hplace t hout ht

end PlainOutputs

/-- The tensors that are written after the pass. -/
theorem produced_separate {N n : ℕ} {g : ℤ → ℤ} {ops : List OpT} (hNn : N ≤ n)
    (hbelow : Below N ops) (horder : InOrder ops) (hfix : ∀ t ∈ plainOutputs ops, g t = t) :
    (produced ((separate g n ops).map OpT.node)).Nodup ∧
      ∀ t ∈ produced ((separate g n ops).map OpT.node), t ∈ plainOutputs ops ∨ (n : ℤ) ≤ t := by
  induction ops generalizing g n with
  | nil => exact ⟨List.nodup_nil, fun t ht => absurd ht List.not_mem_nil⟩
  | cons op rest ih =>
    obtain ⟨hop, hrest⟩ := List.forall_mem_cons.1 hbelow
    cases hplace : inplace op with
    | none =>
      rw [plainOutputs_none hplace] at hfix ⊢
      obtain ⟨hnodup, hmem⟩ := ih hNn hrest horder.tail fun t ht =>
        hfix t (List.mem_append_right _ ht)
      have hout : (renameIndexes g op).node.outs = op.outputIndexes :=
        (List.map_congr_left fun t ht => hfix t (List.mem_append_left _ ht)).trans
          (List.map_id _)
      obtain ⟨hnodupOut, -, hdisjoint⟩ :=
        List.nodup_append.1 (plainOutputs_none hplace ▸ horder.once)
      rw [separate_none hplace, List.map_cons, produced_cons, hout]
      refine ⟨List.nodup_append.2 ⟨hnodupOut, hnodup, fun t ht t' ht' heq => ?_⟩, fun t ht => ?_⟩
      · rcases hmem t' ht' with hplain | hnew
        · exact hdisjoint t ht t' hplain heq
        · have := hop t (List.mem_append_right _ ht)
          omega
      · rcases List.mem_append.1 ht with hin | hin
        · exact .inl (List.mem_append_left _ hin)
        · exact (hmem t hin).imp_left (List.mem_append_right _)
    | some t =>
      obtain ⟨hins, -⟩ := inplace_eq_some.1 hplace
      rw [plainOutputs_some hplace] at hfix ⊢
      have hnot := horder.not_mem_plainOutputs (t := t) (hins ▸ List.mem_cons_self)
      obtain ⟨hnodup, hmem⟩ := ih (n := n + 1) (g := Function.update g t n) (by omega) hrest
        horder.tail fun a ha => by
          rw [Function.update_of_ne fun (hat : a = t) => hnot (hat ▸ ha)]
          exact hfix a ha
      rw [separate_some hplace, List.map_cons, produced_cons]
      refine ⟨List.nodup_cons.2 ⟨fun hin => ?_, hnodup⟩, fun a ha => ?_⟩
      · rcases hmem _ hin with hplain | hnew
        · obtain ⟨op', hop', -, hout⟩ := mem_plainOutputs.1 hplain
          have := hrest op' hop' n (List.mem_append_right _ hout)
          omega
        · omega
      · rcases List.mem_cons.1 ha with rfl | hin
        · exact .inr le_rfl
        · exact (hmem a hin).imp_right fun hle => by omega

/-! ### Values -/

section Values

variable {V : Type} {f : Meaning Params V} {N n : ℕ} {g : ℤ → ℤ} {env env' : ℤ → V} {op : OpT}

/-- The tensors hold the same, each where it is now. -/
def Agree (N : ℕ) (g : ℤ → ℤ) (env env' : ℤ → V) : Prop := ∀ t : ℤ, t < N → env' (g t) = env t

theorem idxOf_map {ts : List ℤ} (h : Renaming N n g) (hts : ∀ t ∈ ts, t < N) {t : ℤ}
    (ht : t < N) : (ts.map g).idxOf (g t) = ts.idxOf t := by
  induction ts with
  | nil => rfl
  | cons a ts ih =>
    obtain ⟨ha, hts⟩ := List.forall_mem_cons.1 hts
    by_cases hat : a = t
    · rw [hat, List.map_cons, List.idxOf_cons_self, List.idxOf_cons_self]
    · rw [List.map_cons, List.idxOf_cons_ne _ hat,
        List.idxOf_cons_ne _ fun hg => hat (h.inj a t ha ht hg), ih hts]

/-- An operator reads what it read. -/
theorem Agree.reads (hagree : Agree N g env env')
    (hop : ∀ t ∈ op.inputIndexes ++ op.outputIndexes, t < N) :
    (op.inputIndexes.map g).map env' = op.inputIndexes.map env := by
  rw [List.map_map]
  exact List.map_congr_left fun t ht => hagree t (hop t (List.mem_append_left _ ht))

theorem Agree.step_none (hagree : Agree N g env env') (h : Renaming N n g)
    (hop : ∀ t ∈ op.inputIndexes ++ op.outputIndexes, t < N) :
    Agree N g (step f env op.node) (step f env' (renameIndexes g op).node) := by
  intro t ht
  have hmem : g t ∈ op.outputIndexes.map g ↔ t ∈ op.outputIndexes := by
    refine ⟨fun hmem => ?_, List.mem_map_of_mem⟩
    obtain ⟨a, ha, hg⟩ := List.mem_map.1 hmem
    exact h.inj a t (hop a (List.mem_append_right _ ha)) ht hg ▸ ha
  have hkind : (renameIndexes g op).params = op.params :=
    congrArg (Params.mk _ _ _ _) (List.length_map _)
  show (if g t ∈ op.outputIndexes.map g then f (renameIndexes g op).params
    ((op.inputIndexes.map g).map env') ((op.outputIndexes.map g).idxOf (g t)) else env' (g t)) =
      if t ∈ op.outputIndexes then f op.params (op.inputIndexes.map env)
        (op.outputIndexes.idxOf t) else env t
  simp only [hmem, hkind, hagree.reads hop, hagree t ht,
    idxOf_map h (fun a ha => hop a (List.mem_append_right _ ha)) ht]

theorem Agree.step_some (hagree : Agree N g env env') (h : Renaming N n g) {t : ℤ}
    (hplace : inplace op = some t)
    (hop : ∀ t ∈ op.inputIndexes ++ op.outputIndexes, t < N) :
    Agree N (Function.update g t n) (step f env op.node)
      (step f env' { renameIndexes g op with outputIndexes := [(n : ℤ)] }.node) := by
  intro a ha
  obtain ⟨hins, houts⟩ := inplace_eq_some.1 hplace
  have hkind : ({ renameIndexes g op with outputIndexes := [(n : ℤ)] } : OpT).params =
      op.params := congrArg (Params.mk _ _ _ _) (congrArg List.length houts).symm
  show (if Function.update g t n a ∈ [(n : ℤ)] then
      f ({ renameIndexes g op with outputIndexes := [(n : ℤ)] } : OpT).params
        ((op.inputIndexes.map g).map env') ([(n : ℤ)].idxOf (Function.update g t n a))
      else env' (Function.update g t n a)) =
    if a ∈ op.outputIndexes then f op.params (op.inputIndexes.map env)
      (op.outputIndexes.idxOf a) else env a
  rw [hkind, hagree.reads hop, houts]
  by_cases hat : a = t
  · rw [hat, Function.update_self, if_pos List.mem_cons_self, if_pos List.mem_cons_self,
      List.idxOf_cons_self, List.idxOf_cons_self]
  · have hne : g a ≠ n := (h.lt a ha).ne
    rw [Function.update_of_ne hat, if_neg fun hmem => hne (List.mem_singleton.1 hmem),
      if_neg fun hmem => hat (List.mem_singleton.1 hmem), hagree a ha]

/-- **Every operator reads what it read**, and is otherwise the same. -/
theorem reads_separate {ops : List OpT} (hagree : Agree N g env env') (h : Renaming N n g)
    (hbelow : Below N ops) {i : ℕ} {op op' : OpT} (hi : ops[i]? = some op)
    (hi' : (separate g n ops)[i]? = some op') :
    op'.params = op.params ∧ op'.name = op.name ∧
      op'.inputIndexes.map (eval f env' (((separate g n ops).take i).map OpT.node)) =
        op.inputIndexes.map (eval f env ((ops.take i).map OpT.node)) := by
  induction ops generalizing g n env env' i with
  | nil => cases hi
  | cons head rest ih =>
    obtain ⟨hop, hrest⟩ := List.forall_mem_cons.1 hbelow
    cases hplace : inplace head with
    | none =>
      rw [separate_none hplace] at hi' ⊢
      cases i with
      | zero =>
        obtain rfl := Option.some.inj hi
        obtain rfl := Option.some.inj hi'
        exact ⟨congrArg (Params.mk _ _ _ _) (List.length_map _), rfl, hagree.reads hop⟩
      | succ i => exact ih (hagree.step_none h hop) h hrest hi hi'
    | some t =>
      rw [separate_some hplace] at hi' ⊢
      cases i with
      | zero =>
        obtain rfl := Option.some.inj hi
        obtain rfl := Option.some.inj hi'
        obtain ⟨-, houts⟩ := inplace_eq_some.1 hplace
        exact ⟨congrArg (Params.mk _ _ _ _) (congrArg List.length houts).symm, rfl,
          hagree.reads hop⟩
      | succ i => exact ih (hagree.step_some h hplace hop) (h.update t) hrest hi hi'

/-- A tensor that is not written in place ends with the same value. -/
theorem eval_separate {ops : List OpT} (hagree : Agree N g env env') (h : Renaming N n g)
    (hbelow : Below N ops) {t : ℤ} (ht : t < N) (hnot : ∀ op ∈ ops, inplace op ≠ some t) :
    eval f env' ((separate g n ops).map OpT.node) (g t) = eval f env (ops.map OpT.node) t := by
  induction ops generalizing g n env env' with
  | nil => exact hagree t ht
  | cons op rest ih =>
    obtain ⟨hop, hrest⟩ := List.forall_mem_cons.1 hbelow
    obtain ⟨hnotHead, hnotRest⟩ := List.forall_mem_cons.1 hnot
    cases hplace : inplace op with
    | none =>
      rw [separate_none hplace]
      exact ih (hagree.step_none h hop) h hrest hnotRest
    | some a =>
      have hat : t ≠ a := fun heq => hnotHead (heq ▸ hplace)
      have hrec := ih (hagree.step_some (f := f) h hplace hop) (h.update a) hrest hnotRest
      rw [Function.update_of_ne hat] at hrec
      rw [separate_some hplace]
      exact hrec

end Values

/-! ### Tensors that are written in place -/

/-- An operator that counts how often it was applied. -/
def counting : Meaning Params ℕ := fun _ ins _ => ins.sum + 1

section Counting

variable {N n : ℕ} {g : ℤ → ℤ} {ops : List OpT} {env env' : ℤ → ℕ} {t : ℤ}

omit env env' in
/-- The tensors that are still to be written stay where they are. -/
theorem update_fixed {op : OpT} {rest : List OpT} {a : ℤ} (hplace : inplace op = some a)
    (horder : InOrder (op :: rest)) (hfix : ∀ b ∈ plainOutputs (op :: rest), g b = b) :
    ∀ b ∈ plainOutputs rest, Function.update g a n b = b := by
  intro b hb
  obtain ⟨hins, -⟩ := inplace_eq_some.1 hplace
  have hnot := horder.not_mem_plainOutputs (t := a) (hins ▸ List.mem_cons_self)
  rw [Function.update_of_ne fun (hba : b = a) => hnot (hba ▸ hb)]
  exact hfix b (by rw [plainOutputs_some hplace]; exact hb)

theorem step_counting_inplace {op : OpT} (hplace : inplace op = some t) :
    step counting env op.node t = env t + 1 := by
  obtain ⟨hins, houts⟩ := inplace_eq_some.1 hplace
  show (if t ∈ op.outputIndexes then (op.inputIndexes.map env).sum + 1 else env t) = env t + 1
  rw [if_pos (houts ▸ List.mem_cons_self), hins]
  exact congrArg (· + 1) (List.sum_singleton)

theorem step_of_not_mem {op : OpT} (hnot : t ∉ op.outputIndexes) :
    step counting env op.node t = env t := if_neg hnot

/-- A tensor that is behind stays behind. -/
theorem eval_counting_lt (hfix : ∀ a ∈ plainOutputs ops, g a = a) (hNn : N ≤ n) (ht : t < N)
    (horder : InOrder ops) (hplain : t ∉ plainOutputs ops) (hlt : env' t < env t) :
    eval counting env' ((separate g n ops).map OpT.node) t <
      eval counting env (ops.map OpT.node) t := by
  induction ops generalizing g n env env' with
  | nil => exact hlt
  | cons op rest ih =>
    cases hplace : inplace op with
    | none =>
      have hsplit : plainOutputs (op :: rest) = op.outputIndexes ++ plainOutputs rest :=
        plainOutputs_none hplace
      rw [hsplit, List.mem_append, not_or] at hplain
      have houts : (renameIndexes g op).outputIndexes = op.outputIndexes :=
        (List.map_congr_left fun a ha => hfix a (hsplit ▸ List.mem_append_left _ ha)).trans
          (List.map_id _)
      rw [separate_none hplace]
      refine ih (fun a ha => hfix a (hsplit ▸ List.mem_append_right _ ha)) hNn horder.tail
        hplain.2 ?_
      rw [step_of_not_mem (houts ▸ hplain.1), step_of_not_mem hplain.1]
      exact hlt
    | some a =>
      rw [separate_some hplace]
      refine ih (update_fixed hplace horder hfix) (Nat.le_succ_of_le hNn) horder.tail
        (by rwa [plainOutputs_some hplace] at hplain) ?_
      have hnew : t ∉ [(n : ℤ)] := by
        rw [List.mem_singleton]
        omega
      rw [step_of_not_mem hnew]
      by_cases hta : t = a
      · rw [step_counting_inplace (hta ▸ hplace)]
        exact Nat.lt_succ_of_lt hlt
      · obtain ⟨-, houts⟩ := inplace_eq_some.1 hplace
        rw [step_of_not_mem (houts ▸ fun hmem => hta (List.mem_singleton.1 hmem))]
        exact hlt

/-- **A tensor that is written in place ends behind.** -/
theorem eval_counting_lt_of_inplace (hagree : Agree N g env env') (h : Renaming N n g)
    (hNn : N ≤ n) (hfix : ∀ a ∈ plainOutputs ops, g a = a) (hbelow : Below N ops)
    (horder : InOrder ops) (ht : t < N) (hgt : g t = t) {op : OpT} (hop : op ∈ ops)
    (hplace : inplace op = some t) :
    eval counting env' ((separate g n ops).map OpT.node) t <
      eval counting env (ops.map OpT.node) t := by
  induction ops generalizing g n env env' with
  | nil => exact absurd hop List.not_mem_nil
  | cons head rest ih =>
    obtain ⟨hhead, hrest⟩ := List.forall_mem_cons.1 hbelow
    cases hinplace : inplace head with
    | none =>
      have hmem : op ∈ rest := (List.mem_cons.1 hop).resolve_left fun heq => by
        rw [heq, hinplace] at hplace
        cases hplace
      rw [separate_none hinplace]
      exact ih (hagree.step_none h hhead) h hNn
        (fun a ha => hfix a (plainOutputs_none hinplace ▸ List.mem_append_right _ ha)) hrest
        horder.tail hgt hmem
    | some a =>
      have hfix' := update_fixed (n := n) hinplace horder hfix
      rw [separate_some hinplace]
      by_cases hta : t = a
      · -- from here on the old tensor is behind
        obtain ⟨hins, -⟩ := inplace_eq_some.1 hinplace
        refine eval_counting_lt hfix' (Nat.le_succ_of_le hNn) ht horder.tail
          (horder.not_mem_plainOutputs (hins ▸ hta ▸ List.mem_cons_self)) ?_
        have hnew : t ∉ [(n : ℤ)] := by
          rw [List.mem_singleton]
          omega
        have hsame := hagree t ht
        rw [hgt] at hsame
        rw [step_of_not_mem hnew, step_counting_inplace (hta ▸ hinplace), hsame]
        exact Nat.lt_succ_self _
      · have hmem : op ∈ rest := (List.mem_cons.1 hop).resolve_left fun heq => by
          rw [heq, hinplace] at hplace
          exact hta (Option.some.inj hplace).symm
        exact ih (hagree.step_some h hinplace hhead) (h.update a) (Nat.le_succ_of_le hNn) hfix'
          hrest horder.tail (by rw [Function.update_of_ne hta]; exact hgt) hmem

end Counting

/-! ### Nets -/

/-- Single assignment with the same meaning: every tensor is written once, every operator is the
same and reads what it read, and the tensor of a declared name ends with the value that the tensor
of that name had. -/
structure Separates (net net' : NetT) : Prop where
  once : (produced net'.nodes).Nodup
  length : net'.oplists.length = net.oplists.length
  reads : ∀ (V : Type) (f : Meaning Params V) (base : ℤ → V) (i : ℕ) (op op' : OpT),
    net.oplists[i]? = some op → net'.oplists[i]? = some op' →
    op'.params = op.params ∧ op'.name = op.name ∧
      op'.inputIndexes.map (eval f base (net'.nodes.take i)) =
        op.inputIndexes.map (eval f base (net.nodes.take i))
  outputName : net'.outputName = net.outputName
  outputs : ∀ (V : Type) (f : Meaning Params V) (base : ℤ → V), ∀ name ∈ net.outputName,
    ∀ t, lookup net.tensorName name = some t →
      ∃ t', lookup net'.tensorName name = some t' ∧ net'.value f base t' = net.value f base t

section Nets

variable {net : TensorNetT}

theorem renaming_id (N : ℕ) : Renaming N N id := ⟨fun _ _ _ _ h => h, fun _ h => h⟩

theorem below_of_inRange (hrange : net.InRange) :
    Below net.tensorName.length net.oplists := fun op hop t ht =>
  (List.mem_append.1 ht).elim (hrange.inputs op hop t) fun hout => (hrange.outputs op hop t hout).2

/-- The net after the pass. -/
theorem onExecute_eq (hrange : net.InRange) :
    (onExecute net).oplists = separate id net.tensorName.length net.oplists ∧
      (onExecute net).tensorName = net.tensorName ++ newNames net.oplists := by
  obtain ⟨k, hk⟩ := visit_iterate (below_of_inRange hrange) (renaming_id _) [] net.tensorNumber
  have hid : net.oplists.map (renameIndexes id) = net.oplists := by
    refine (List.map_congr_left fun op _ => ?_).trans (List.map_id _)
    simp only [renameIndexes, List.map_id, id_eq]
  rw [hid] at hk
  simp only [onExecute, hk, List.append_nil, List.nil_append, and_self]

theorem length_separate {g : ℤ → ℤ} {n : ℕ} {ops : List OpT} :
    (separate g n ops).length = ops.length := by
  induction ops generalizing g n with
  | nil => rfl
  | cons op rest ih =>
    cases hplace : inplace op with
    | none => rw [separate_none hplace, List.length_cons, ih, List.length_cons]
    | some t => rw [separate_some hplace, List.length_cons, ih, List.length_cons]

/-- A name keeps its tensor. -/
theorem lookup_append {tensorName names : List String} {name : String} {t : ℕ}
    (h : lookup tensorName name = some t) : lookup (tensorName ++ names) name = some t := by
  rw [lookup] at h ⊢
  rw [List.findIdx?_append, h]
  rfl

theorem take_nodes (net : NetT) (i : ℕ) : net.nodes.take i = (net.oplists.take i).map OpT.node :=
  List.map_take.symm

/-- Declared outputs are not written in place, where they keep their values. -/
theorem not_inplace_of_separates (hrange : net.InRange) (horder : InOrder net.oplists)
    (h : Separates net.toNetT (onExecute net).toNetT) {name : String}
    (hname : name ∈ net.outputName) {t : ℕ} (ht : lookup net.tensorName name = some t) :
    ∀ op ∈ net.oplists, inplace op ≠ some (t : ℤ) := by
  intro op hop hplace
  obtain ⟨hoplists, hnames⟩ := onExecute_eq hrange
  obtain ⟨t', ht', hvalue⟩ := h.outputs ℕ counting (fun _ => 0) name hname t ht
  rw [hnames, lookup_append ht] at ht'
  obtain rfl := Option.some.inj ht'
  have hagree : Agree net.tensorName.length id (fun _ => 0) (fun _ => 0) := fun _ _ => rfl
  have hlt := eval_counting_lt_of_inplace hagree (renaming_id _) le_rfl (fun _ _ => rfl)
    (below_of_inRange hrange) horder (by exact_mod_cast lookup_lt ht) rfl hop hplace
  rw [NetT.value, NetT.value, NetT.nodes, NetT.nodes, hoplists] at hvalue
  exact hlt.ne hvalue

/-- **Single assignment with the same meaning**, exactly if no declared output is written in
place. -/
theorem separates_iff (hrange : net.InRange) (horder : InOrder net.oplists) :
    Separates net.toNetT (onExecute net).toNetT ↔
      ∀ name ∈ net.outputName, ∀ t : ℕ, lookup net.tensorName name = some t →
        ∀ op ∈ net.oplists, inplace op ≠ some (t : ℤ) := by
  refine ⟨fun h name hname t ht => not_inplace_of_separates hrange horder h hname ht,
    fun hnot => ?_⟩
  obtain ⟨hoplists, hnames⟩ := onExecute_eq hrange
  refine ⟨?_, ?_, fun V f base i op op' hi hi' => ?_, rfl, fun V f base name hname t ht => ?_⟩
  · rw [NetT.nodes, hoplists]
    exact (produced_separate le_rfl (below_of_inRange hrange) horder fun _ _ => rfl).1
  · rw [hoplists, length_separate]
  · rw [hoplists] at hi'
    rw [take_nodes, take_nodes, hoplists]
    exact reads_separate (fun _ _ => rfl) (renaming_id _) (below_of_inRange hrange) hi hi'
  · refine ⟨t, hnames ▸ lookup_append ht, ?_⟩
    rw [NetT.value, NetT.value, NetT.nodes, NetT.nodes, hoplists]
    exact eval_separate (g := id) (fun _ _ => rfl) (renaming_id _) (below_of_inRange hrange)
      (by exact_mod_cast lookup_lt ht) (hnot name hname t ht)

end Nets

/-- An input, an operator that works on it in place, and one that reads the result. -/
def inputReluPool (outputName : List String) : TensorNetT where
  oplists := [
    { inputIndexes := [], name := "x", outputIndexes := [0], type := .input },
    { inputIndexes := [0], name := "relu", outputIndexes := [0], type := .relu },
    { inputIndexes := [0], name := "pool", outputIndexes := [1], type := .other 0 }]
  outputName := outputName
  tensorName := ["x", "pool"]

theorem separates_pool : Separates (inputReluPool ["pool"]).toNetT
    (onExecute (inputReluPool ["pool"])).toNetT :=
  (separates_iff ⟨by decide, by decide⟩ ⟨by decide, by decide⟩).2 (by decide)

/-- The tensor that is written in place is declared as well. -/
theorem not_separates_declared : ¬ Separates (inputReluPool ["pool", "x"]).toNetT
    (onExecute (inputReluPool ["pool", "x"])).toNetT := by
  intro h
  have hname : "x" ∈ (inputReluPool ["pool", "x"]).outputName := by decide
  have hlookup : lookup (inputReluPool ["pool", "x"]).tensorName "x" = some 0 := by decide
  exact not_inplace_of_separates ⟨by decide, by decide⟩ ⟨by decide, by decide⟩ h hname hlookup _
    (List.mem_cons_of_mem _ List.mem_cons_self) (by decide)

end Mnn.Converter.RemoveInplace
