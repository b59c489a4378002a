import Mathlib.Data.List.Basic
import Mathlib.Data.List.Flatten
import Mathlib.Data.List.Nodup
import Mathlib.Data.Set.Basic

/-!
# Dataflow programs

A list of nodes in single-assignment form: each reads tensors and writes tensors that no other node
writes.

* `Node`, `eval`: the program and its run, for any meaning of the kinds of nodes;
* `Ordered`: every tensor is written once and read after it was written;
* `Fed`: every node reads what was there or was written before; `Fed.erase`: **erasing a node whose
  readers read something else**;
* `Solves`: an assignment of values under which every node's equation holds;
* `eval_solves`, `eval_eq`: **the run is the one assignment that solves the equations**, so a change
  of the program that keeps the equations true keeps the values;
* `evalPinned`, `evalPinned_solves`: the same with tensors that are given, whoever writes them.
-/

namespace Lib.Dataflow

/-- A node: what it does, the tensors it reads and those it writes. -/
structure Node (κ ι : Type*) where
  kind : κ
  ins : List ι
  outs : List ι

/-- What a kind computes from the values of the inputs, for each output. -/
abbrev Meaning (κ V : Type*) := κ → List V → ℕ → V

variable {κ ι V : Type*}

/-- The tensors that are written. -/
def produced (nodes : List (Node κ ι)) : List ι := nodes.flatMap Node.outs

@[simp] theorem produced_nil : produced ([] : List (Node κ ι)) = [] := rfl
@[simp] theorem produced_cons (n : Node κ ι) (nodes : List (Node κ ι)) :
    produced (n :: nodes) = n.outs ++ produced nodes := rfl
@[simp] theorem produced_append (nodes nodes' : List (Node κ ι)) :
    produced (nodes ++ nodes') = produced nodes ++ produced nodes' := List.flatMap_append

theorem mem_produced {nodes : List (Node κ ι)} {t : ι} :
    t ∈ produced nodes ↔ ∃ n ∈ nodes, t ∈ n.outs := List.mem_flatMap

/-- Every tensor is written once, and no node reads what it or a later one writes. -/
structure Ordered (nodes : List (Node κ ι)) : Prop where
  nodup : (produced nodes).Nodup
  own : ∀ n ∈ nodes, ∀ t ∈ n.outs, t ∉ n.ins
  later : nodes.Pairwise fun m n => ∀ t ∈ n.outs, t ∉ m.ins

theorem ordered_nil : Ordered ([] : List (Node κ ι)) :=
  ⟨List.nodup_nil, fun _ h => absurd h List.not_mem_nil, .nil⟩

theorem ordered_cons {n : Node κ ι} {nodes : List (Node κ ι)} :
    Ordered (n :: nodes) ↔ n.outs.Nodup ∧ (∀ t ∈ n.outs, t ∉ produced nodes) ∧
      (∀ t ∈ n.ins, t ∉ n.outs ∧ t ∉ produced nodes) ∧ Ordered nodes := by
  constructor
  · intro h
    obtain ⟨hn, hnodes, hdisj⟩ := List.nodup_append.1 h.nodup
    obtain ⟨hlater, hrest⟩ := List.pairwise_cons.1 h.later
    refine ⟨hn, fun t ht ht' => hdisj t ht t ht' rfl, fun t ht => ⟨fun hout => ?_, fun hout => ?_⟩,
      hnodes, fun m hm => h.own m (List.mem_cons_of_mem n hm), hrest⟩
    · exact h.own n List.mem_cons_self t hout ht
    · obtain ⟨m, hm, hout⟩ := mem_produced.1 hout
      exact hlater m hm t hout ht
  · rintro ⟨hn, hdisj, hins, hrest⟩
    refine ⟨List.nodup_append.2 ⟨hn, hrest.nodup, fun t ht t' ht' heq => hdisj t ht (heq ▸ ht')⟩,
      List.forall_mem_cons.2 ⟨fun t ht ht' => (hins t ht').1 ht, hrest.own⟩,
      List.pairwise_cons.2 ⟨fun m hm t ht ht' => (hins t ht').2 (mem_produced.2 ⟨m, hm, ht⟩),
        hrest.later⟩⟩

theorem Ordered.sublist {nodes nodes' : List (Node κ ι)} (h : Ordered nodes)
    (hsub : nodes'.Sublist nodes) : Ordered nodes' :=
  ⟨h.nodup.sublist (hsub.flatMap _), fun n hn => h.own n (hsub.subset hn),
    h.later.sublist hsub⟩

/-! ### Nodes that are fed -/

/-- Every node reads what is there from the start or was written before. -/
def Fed : Set ι → List (Node κ ι) → Prop
  | _, [] => True
  | S, n :: nodes => (∀ t ∈ n.ins, t ∈ S) ∧ Fed (S ∪ {t | t ∈ n.outs}) nodes

section Fed

variable {S : Set ι} {nodes : List (Node κ ι)}

theorem fed_append {nodes' : List (Node κ ι)} :
    Fed S (nodes ++ nodes') ↔ Fed S nodes ∧ Fed (S ∪ {t | t ∈ produced nodes}) nodes' := by
  induction nodes generalizing S with
  | nil =>
    rw [produced_nil]
    simp only [List.nil_append, Fed, true_and, List.not_mem_nil, Set.ofPred_false, Set.union_empty]
  | cons n nodes ih =>
    have hset : S ∪ {t | t ∈ n.outs} ∪ {t | t ∈ produced nodes} =
        S ∪ {t | t ∈ produced (n :: nodes)} := by
      ext t
      simp only [produced_cons, List.mem_append, Set.mem_union, Set.mem_ofPred_eq, or_assoc]
    rw [List.cons_append, Fed, Fed, ih, hset, and_assoc]

theorem Fed.mono {T : Set ι} (h : Fed S nodes) (hST : S ⊆ T) : Fed T nodes := by
  induction nodes generalizing S T with
  | nil => trivial
  | cons n nodes ih =>
    exact ⟨fun t ht => hST (h.1 t ht), ih h.2 (Set.union_subset_union_left _ hST)⟩

/-- Nodes that read what is there from the start. -/
theorem fed_of_reads (h : ∀ n ∈ nodes, ∀ t ∈ n.ins, t ∈ S) : Fed S nodes := by
  induction nodes generalizing S with
  | nil => trivial
  | cons n nodes ih =>
    obtain ⟨hn, hrest⟩ := List.forall_mem_cons.1 h
    exact ⟨hn, (ih hrest).mono Set.subset_union_left⟩

/-- Where a node of a fed program reads from. -/
theorem Fed.split {pre post : List (Node κ ι)} {n : Node κ ι} (h : Fed S (pre ++ n :: post)) :
    ∀ t ∈ n.ins, t ∈ S ∨ t ∈ produced pre :=
  (fed_append.1 h).2.1

theorem Fed.mem (h : Fed S nodes) {n : Node κ ι} (hn : n ∈ nodes) {t : ι} (ht : t ∈ n.ins) :
    t ∈ S ∨ t ∈ produced nodes := by
  obtain ⟨pre, post, rfl⟩ := List.append_of_mem hn
  refine (h.split t ht).imp_right fun hpre => ?_
  rw [produced_append]
  exact List.mem_append_left _ hpre

theorem Ordered.fed (h : Ordered nodes) (hS : ∀ n ∈ nodes, ∀ t ∈ n.ins, t ∉ produced nodes → t ∈ S) :
    Fed S nodes := by
  induction nodes generalizing S with
  | nil => trivial
  | cons n nodes ih =>
    obtain ⟨hn, hdisj, hins, hrest⟩ := ordered_cons.1 h
    refine ⟨fun t ht => hS n List.mem_cons_self t ht ?_, ih hrest fun m hm t ht hnot => ?_⟩
    · rw [produced_cons, List.mem_append, not_or]
      exact hins t ht
    · by_cases hout : t ∈ n.outs
      · exact .inr hout
      · refine .inl (hS m (List.mem_cons_of_mem n hm) t ht ?_)
        rw [produced_cons, List.mem_append, not_or]
        exact ⟨hout, hnot⟩

theorem Fed.ordered (h : Fed S nodes) (hnodup : (produced nodes).Nodup)
    (hS : ∀ t ∈ S, t ∉ produced nodes) : Ordered nodes := by
  induction nodes generalizing S with
  | nil => exact ordered_nil
  | cons n nodes ih =>
    obtain ⟨hn, hrest, hdisj⟩ := List.nodup_append.1 hnodup
    have hnot : ∀ t ∈ S, t ∉ n.outs ∧ t ∉ produced nodes := by
      intro t ht
      have := hS t ht
      rwa [produced_cons, List.mem_append, not_or] at this
    refine ordered_cons.2 ⟨hn, fun t ht ht' => hdisj t ht t ht' rfl, fun t ht => hnot t (h.1 t ht),
      ih h.2 hrest ?_⟩
    rintro t (ht | ht)
    · exact (hnot t ht).2
    · exact fun ht' => hdisj t ht t ht' rfl

/-- The node reads other tensors. -/
def Node.rename (g : ι → ι) (n : Node κ ι) : Node κ ι := { n with ins := n.ins.map g }

@[simp] theorem produced_map_rename (g : ι → ι) (nodes : List (Node κ ι)) :
    produced (nodes.map (Node.rename g)) = produced nodes := by
  rw [produced, List.flatMap_map]
  rfl

theorem map_rename_eq {g : ι → ι} (h : ∀ n ∈ nodes, ∀ t ∈ n.ins, g t = t) :
    nodes.map (Node.rename g) = nodes := by
  refine (List.map_congr_left fun n hn => ?_).trans (List.map_id nodes)
  rw [Node.rename, List.map_congr_left (h n hn), List.map_id']
  rfl

/-- Readers of `O` that read something else instead. -/
theorem Fed.rename {O : Set ι} {g : ι → ι} (h : Fed (S ∪ O) nodes) (hg : ∀ t ∉ O, g t = t)
    (hread : ∀ n ∈ nodes, ∀ t ∈ n.ins, t ∈ O → g t ∈ S) : Fed S (nodes.map (Node.rename g)) := by
  induction nodes generalizing S with
  | nil => trivial
  | cons n nodes ih =>
    obtain ⟨hn, hrest⟩ := List.forall_mem_cons.1 hread
    refine ⟨fun t ht => ?_, ?_⟩
    · obtain ⟨u, hu, rfl⟩ := List.mem_map.1 ht
      by_cases huO : u ∈ O
      · exact hn u hu huO
      · rw [hg u huO]
        exact (h.1 u hu).resolve_right huO
    · refine ih ?_ fun m hm t ht htO => .inl (hrest m hm t ht htO)
      have hset : S ∪ {t | t ∈ (n.rename g).outs} ∪ O = S ∪ O ∪ {t | t ∈ n.outs} :=
        Set.union_right_comm _ _ _
      rw [hset]
      exact h.2

/-- **A node is erased**, and its readers read what was written before it. -/
theorem Fed.erase {pre post : List (Node κ ι)} {n : Node κ ι} {g : ι → ι}
    (h : Fed S (pre ++ n :: post)) (hg : ∀ t ∉ n.outs, g t = t)
    (hpre : ∀ m ∈ pre, ∀ t ∈ m.ins, t ∉ n.outs)
    (hpost : ∀ m ∈ post, ∀ t ∈ m.ins, t ∈ n.outs → g t ∈ S ∨ g t ∈ produced pre) :
    Fed S ((pre ++ post).map (Node.rename g)) := by
  obtain ⟨hfed, -, hrest⟩ := fed_append.1 h
  rw [List.map_append, map_rename_eq fun m hm t ht => hg t (hpre m hm t ht), fed_append]
  exact ⟨hfed, hrest.rename hg hpost⟩

end Fed

section Eval

variable [DecidableEq ι] (f : Meaning κ V)

/-- One node writes its outputs. -/
def step (env : ι → V) (n : Node κ ι) : ι → V := fun t =>
  if t ∈ n.outs then f n.kind (n.ins.map env) (n.outs.idxOf t) else env t

/-- The values after all nodes, from those of the tensors that nobody writes. -/
def eval (base : ι → V) (nodes : List (Node κ ι)) : ι → V := nodes.foldl (step f) base

/-- The equations of the nodes hold. -/
def Solves (env : ι → V) (nodes : List (Node κ ι)) : Prop :=
  ∀ n ∈ nodes, ∀ t ∈ n.outs, env t = f n.kind (n.ins.map env) (n.outs.idxOf t)

variable {f} {base env : ι → V} {nodes : List (Node κ ι)}

theorem eval_of_not_mem {t : ι} (ht : t ∉ produced nodes) : eval f base nodes t = base t := by
  induction nodes generalizing base with
  | nil => rfl
  | cons n nodes ih =>
    rw [produced_cons, List.mem_append, not_or] at ht
    exact (ih ht.2).trans (if_neg ht.1)

/-- An assignment that solves the equations of the tensors with `P`, and agrees with the start on what
is read from there, is the run on these tensors, when no others are read. -/
theorem eval_eq_on {P : ι → Prop} (hord : Ordered nodes) (hread : ∀ n ∈ nodes, ∀ t ∈ n.ins, P t)
    (hsolves : ∀ n ∈ nodes, ∀ t ∈ n.outs, P t →
      env t = f n.kind (n.ins.map env) (n.outs.idxOf t))
    (hbase : ∀ n ∈ nodes, ∀ t ∈ n.ins, t ∉ produced nodes → env t = base t) {t : ι}
    (ht : t ∈ produced nodes) (hP : P t) : eval f base nodes t = env t := by
  induction nodes generalizing base with
  | nil => exact absurd ht List.not_mem_nil
  | cons n nodes ih =>
    obtain ⟨hn, hdisj, hins, hrest⟩ := ordered_cons.1 hord
    obtain ⟨hsolve, hsolves⟩ := List.forall_mem_cons.1 hsolves
    -- the first node reads what was there at the start
    have hfirst : n.ins.map base = n.ins.map env := by
      refine List.map_congr_left fun t ht => (hbase n List.mem_cons_self t ht ?_).symm
      rw [produced_cons, List.mem_append, not_or]
      exact hins t ht
    have hstep : ∀ t ∈ n.outs, P t → step f base n t = env t := by
      intro t ht hP
      rw [step, if_pos ht, hfirst, ← hsolve t ht hP]
    rcases List.mem_append.1 ht with hout | hprod
    · exact (eval_of_not_mem (hdisj t hout)).trans (hstep t hout hP)
    · refine ih hrest (fun m hm => hread m (List.mem_cons_of_mem n hm)) hsolves
        (fun m hm t ht hnot => ?_) hprod
      by_cases hout : t ∈ n.outs
      · exact (hstep t hout (hread m (List.mem_cons_of_mem n hm) t ht)).symm
      · rw [step, if_neg hout]
        refine hbase m (List.mem_cons_of_mem n hm) t ht ?_
        rw [produced_cons, List.mem_append, not_or]
        exact ⟨hout, hnot⟩

/-- An assignment that solves the equations, and agrees with the start on what is read from there,
is the run. -/
theorem eval_eq (hord : Ordered nodes) (hsolves : Solves f env nodes)
    (hbase : ∀ n ∈ nodes, ∀ t ∈ n.ins, t ∉ produced nodes → env t = base t) {t : ι}
    (ht : t ∈ produced nodes) : eval f base nodes t = env t :=
  eval_eq_on (P := fun _ => True) hord (fun _ _ _ _ => trivial)
    (fun n hn t ht _ => hsolves n hn t ht) hbase ht trivial

/-- The run solves the equations. -/
theorem eval_solves (hord : Ordered nodes) : Solves f (eval f base nodes) nodes := by
  induction nodes generalizing base with
  | nil => exact fun n hn => absurd hn List.not_mem_nil
  | cons n nodes ih =>
    obtain ⟨hn, hdisj, hins, hrest⟩ := ordered_cons.1 hord
    refine List.forall_mem_cons.2 ⟨fun t ht => ?_, ih hrest⟩
    have hread : n.ins.map (eval f base (n :: nodes)) = n.ins.map base := by
      refine List.map_congr_left fun t ht => eval_of_not_mem ?_
      rw [produced_cons, List.mem_append, not_or]
      exact hins t ht
    rw [hread]
    exact (eval_of_not_mem (hdisj t ht)).trans (if_pos ht)

section Pinned

variable (f base) (P : ι → Prop) [DecidablePred P]

/-- One node writes those of its outputs that are not given. -/
def stepPinned (env : ι → V) (n : Node κ ι) : ι → V := fun t => if P t then env t else step f env n t

/-- The values after all nodes, where the tensors with `P` are given. -/
def evalPinned (nodes : List (Node κ ι)) : ι → V := nodes.foldl (stepPinned f P) base

variable {f base P}

theorem evalPinned_of_not_mem {t : ι} (ht : P t ∨ t ∉ produced nodes) :
    evalPinned f base P nodes t = base t := by
  induction nodes generalizing base with
  | nil => rfl
  | cons n nodes ih =>
    rw [produced_cons, List.mem_append, not_or] at ht
    refine (ih (ht.imp_right And.right)).trans ?_
    rw [stepPinned]
    split
    · rfl
    · next hP => exact if_neg (ht.resolve_left hP).1

/-- The run solves the equations of the tensors that are not given. -/
theorem evalPinned_solves (hord : Ordered nodes) {n : Node κ ι} (hn : n ∈ nodes) {t : ι}
    (ht : t ∈ n.outs) (hP : ¬ P t) :
    evalPinned f base P nodes t =
      f n.kind (n.ins.map (evalPinned f base P nodes)) (n.outs.idxOf t) := by
  induction nodes generalizing base with
  | nil => exact absurd hn List.not_mem_nil
  | cons m nodes ih =>
    obtain ⟨-, hdisj, hins, hrest⟩ := ordered_cons.1 hord
    rcases List.mem_cons.1 hn with rfl | hn
    · have hread : n.ins.map (evalPinned f base P (n :: nodes)) = n.ins.map base := by
        refine List.map_congr_left fun t ht => evalPinned_of_not_mem (.inr ?_)
        rw [produced_cons, List.mem_append, not_or]
        exact hins t ht
      rw [hread]
      refine (evalPinned_of_not_mem (.inr (hdisj t ht))).trans ?_
      rw [stepPinned, if_neg hP, step, if_pos ht]
    · exact ih hrest hn

end Pinned

end Eval

end Lib.Dataflow
