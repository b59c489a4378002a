import Mnn.Lib.Descent

/-!
# `crossBoundary`

Whether a rewritten expression cuts an expression of the boundary off
(`tools/converter/source/optimizer/TemplateMerge.cpp`, `express/Expr.cpp`).

* `Graph`, `SetOrder`, `State`: expressions with their inputs, what `begin()` gives of a set, and
  the variables of both searches;
* `process`, `drain`, `step`, `loop`, `crossBoundary`, `merge`: the code;
* `process_eq`, `step_eq`: nothing is ever marked;
* `front`, `loop_spec`: the sets of both searches, and what the loop returns of them;
* `exists_setOrder`: every pair of descents is searched in some order;
* `CutOff`, `Decides`, `Separated`: what the function is for, and when it does it;
* `decides_iff`: **it decides exactly in these graphs**.
-/

namespace Mnn.Converter.TemplateMerge

open Lib.Descent

variable {ε : Type*}

/-! ### The code -/

/-- `inputs()` of every expression; an input may be null. -/
structure Graph (ε : Type*) where
  inputs : ε → List (Option ε)

def Graph.next (g : Graph ε) (expr : ε) : List ε := (g.inputs expr).reduceOption

/-- `begin()` of the sets of both searches: some element, by the pass of the loop, the search and
what is in the set. -/
structure SetOrder (ε : Type*) where
  begin : ℕ → Bool → List ε → ε
  begin_mem : ∀ k index l, l ≠ [] → begin k index l ∈ l

/-- `flag[index]`, where `false` is the search from `origin`. -/
def visited (index : Bool) : ℕ := if index then 2 else 1

/-- `flag[index + 2]`. -/
def contained (index : Bool) : ℕ := if index then 8 else 4

structure State (ε : Type*) where
  exprState : ε → ℕ
  edge : Bool → List ε

section Code

variable [DecidableEq ε] (g : Graph ε)

/-- `Expr::visit` from an expression that the opposite side contains. -/
def undo (index : Bool) : ℕ → State ε → ε → State ε
  | 0, s, _ => s
  | fuel + 1, s, expr =>
    if s.exprState expr &&& contained (!index) = 0 then s
    else
      let s : State ε :=
        { exprState :=
            Function.update s.exprState expr (s.exprState expr ^^^ contained (!index))
          edge := Function.update s.edge (!index) ((s.edge !index).erase expr) }
      (g.next expr).foldl (undo index fuel) s

/-- The body of the loop over an edge, on the state and `nextEdge`. -/
def process (fuel : ℕ) (index : Bool) (p : State ε × List ε) (now : ε) : State ε × List ε :=
  let s : State ε :=
    { p.1 with edge := Function.update p.1.edge index ((p.1.edge index).erase now) }
  if s.exprState now &&& visited index ≠ 0 then (s, p.2)
  else
    let s : State ε :=
      { s with
        exprState := Function.update s.exprState now (s.exprState now &&& visited index) }
    -- opposite side contain the expr too, remove itself and parent nodes
    if s.exprState now &&& contained (!index) ≠ 0 then (undo g index fuel s now, p.2)
    else
      let s : State ε :=
        { s with
          exprState := Function.update s.exprState now (s.exprState now &&& contained index) }
      (s, (g.next now).foldl (fun nextEdge next =>
        if s.exprState next &&& visited index = 0 ∧ next ∉ s.edge index then nextEdge.insert next
        else nextEdge) p.2)

/-- The loop over an edge, for at most some number of expressions. -/
def drain (o : SetOrder ε) (fuel k : ℕ) (index : Bool) : ℕ → State ε × List ε → State ε × List ε
  | 0, p => p
  | n + 1, p =>
    if p.1.edge index = [] then p
    else drain o fuel k index n (process g fuel index p (o.begin k index (p.1.edge index)))

def step (o : SetOrder ε) (fuel k : ℕ) (s : State ε) (index : Bool) : State ε :=
  if s.edge index = [] then s
  else
    let p := drain g o fuel k index (s.edge index).length (s, [])
    { p.1 with edge := Function.update p.1.edge index p.2 }

/-- The loop over both searches; `k` is the number of the pass. -/
def loop (o : SetOrder ε) (boundary : List ε) : ℕ → ℕ → State ε → Bool → Option Bool
  | 0, _, _, _ => none
  | fuel + 1, k, s, optDone =>
    if s.edge false = [] ∧ s.edge true = [] then
      some (boundary.any fun expr => s.exprState expr &&& contained false ≠ 0)
    else
      let s := step g o fuel k (step g o fuel k s false) true
      if s.edge true = [] then
        if optDone = false ∧ ∃ expr ∈ boundary, s.exprState expr &&& contained false ≠ 0 then
          some true
        else if ∃ expr ∈ s.edge false,
            expr ∈ boundary ∧ s.exprState expr &&& contained true = 0 then
          some true
        else loop o boundary fuel (k + 1) s true
      else loop o boundary fuel (k + 1) s optDone

def crossBoundary (o : SetOrder ε) (origin opt : ε) (boundary : List ε) (fuel : ℕ) : Option Bool :=
  if boundary = [] then some false
  else loop g o boundary fuel 0 ⟨fun _ => 0, fun index => if index then [opt] else [origin]⟩ false

/-- What `onExecute` does with an expression that a pass was tried on. -/
inductive Outcome
  | invalid
  | undone
  | changed
  deriving DecidableEq, Repr

def merge (o : SetOrder ε) (originVar var : ε) (boundaryExpr : List ε) (fuel : ℕ) (pass : Bool) :
    Option Outcome :=
  if pass then
    (crossBoundary g o originVar var boundaryExpr fuel).map fun crosses =>
      if crosses then .undone else .changed
  else some .invalid

end Code

/-! ### Nothing is marked -/

section Unmarked

variable [DecidableEq ε] {g : Graph ε} {o : SetOrder ε} {fuel k : ℕ} {index : Bool}
  {edge : Bool → List ε} {nextEdge : List ε} {now z : ε}

/-- What the edge gives the next one, when its expressions come in this order. -/
def advance (g : Graph ε) : List ε → List ε → List ε
  | [], nextEdge => nextEdge
  | now :: rest, nextEdge => advance g rest
    ((g.next now).foldl (fun nextEdge next =>
      if next ∉ rest then nextEdge.insert next else nextEdge) nextEdge)

/-- `&=` on a state of zero leaves zero. -/
theorem process_eq : process g fuel index (⟨fun _ => 0, edge⟩, nextEdge) now =
    (⟨fun _ => 0, Function.update edge index ((edge index).erase now)⟩,
      (g.next now).foldl (fun nextEdge next =>
        if next ∉ (edge index).erase now then nextEdge.insert next else nextEdge) nextEdge) := by
  simp only [process, Nat.zero_and, ne_eq, not_true_eq_false, if_false, true_and,
    Function.update_self, Function.update_eq_self]

/-- The order in which an edge is gone through. -/
def picks (o : SetOrder ε) (k : ℕ) (index : Bool) : ℕ → List ε → List ε
  | 0, _ => []
  | n + 1, l =>
    if l = [] then [] else o.begin k index l :: picks o k index n (l.erase (o.begin k index l))

theorem perm_picks {n : ℕ} {l : List ε} (hn : l.length = n) : (picks o k index n l).Perm l := by
  induction n generalizing l with
  | zero => rw [List.length_eq_zero_iff.1 hn, picks]
  | succ n ih =>
    have hne : l ≠ [] := List.ne_nil_of_length_eq_add_one hn
    have hmem := o.begin_mem k index l hne
    rw [picks, if_neg hne]
    refine ((ih ?_).cons _).trans (List.perm_cons_erase hmem).symm
    rw [List.length_erase_of_mem hmem, hn, Nat.add_sub_cancel]

theorem drain_eq {n : ℕ} (hn : (edge index).length = n) :
    drain g o fuel k index n (⟨fun _ => 0, edge⟩, nextEdge) =
      (⟨fun _ => 0, Function.update edge index []⟩,
        advance g (picks o k index n (edge index)) nextEdge) := by
  induction n generalizing edge nextEdge with
  | zero =>
    have hnil := List.length_eq_zero_iff.1 hn
    rw [drain, picks, advance, ← hnil, Function.update_eq_self]
  | succ n ih =>
    have hne : edge index ≠ [] := List.ne_nil_of_length_eq_add_one hn
    have hmem := o.begin_mem k index _ hne
    have hlength : ((edge index).erase (o.begin k index (edge index))).length = n := by
      rw [List.length_erase_of_mem hmem, hn, Nat.add_sub_cancel]
    rw [drain, if_neg hne, process_eq, ih (by rw [Function.update_self]; exact hlength),
      Function.update_idem, Function.update_self, picks, if_neg hne, advance]
    have hpicks : ∀ z, z ∈ picks o k index n ((edge index).erase (o.begin k index (edge index))) ↔
        z ∈ (edge index).erase (o.begin k index (edge index)) := fun z =>
      (perm_picks hlength).mem_iff
    simp only [hpicks]

theorem step_eq : step g o fuel k ⟨fun _ => 0, edge⟩ index = ⟨fun _ => 0, Function.update edge index
    (advance g (picks o k index (edge index).length (edge index)) [])⟩ := by
  by_cases hnil : edge index = []
  · have hself : Function.update edge index [] = edge := by
      rw [Function.update_eq_self_iff]
      exact hnil.symm
    rw [step, if_pos hnil, hnil]
    exact congrArg (State.mk _) hself.symm
  · rw [step, if_neg hnil, drain_eq rfl]
    exact congrArg (State.mk _) (Function.update_idem _ _ _)

theorem mem_foldl_insert {l rest : List ε} : z ∈ l.foldl (fun nextEdge next =>
      if next ∉ rest then nextEdge.insert next else nextEdge) nextEdge ↔
    z ∈ nextEdge ∨ z ∈ l ∧ z ∉ rest := by
  induction l generalizing nextEdge with
  | nil => simp
  | cons a l ih =>
    rw [List.foldl_cons, ih]
    by_cases hrest : a ∈ rest
    · rw [if_neg (not_not.2 hrest)]
      refine or_congr_right ⟨fun h => ⟨List.mem_cons_of_mem a h.1, h.2⟩, fun ⟨h, hz⟩ => ⟨?_, hz⟩⟩
      exact (List.mem_cons.1 h).resolve_left fun heq => hz (heq ▸ hrest)
    · rw [if_pos hrest, List.mem_insert_iff, List.mem_cons]
      constructor
      · rintro ((rfl | h) | h)
        · exact .inr ⟨.inl rfl, hrest⟩
        · exact .inl h
        · exact .inr ⟨.inr h.1, h.2⟩
      · rintro (h | ⟨rfl | h, hz⟩)
        · exact .inl (.inr h)
        · exact .inl (.inl rfl)
        · exact .inr ⟨h, hz⟩

theorem nodup_foldl_insert {l rest : List ε} (h : nextEdge.Nodup) :
    (l.foldl (fun nextEdge next =>
      if next ∉ rest then nextEdge.insert next else nextEdge) nextEdge).Nodup := by
  induction l generalizing nextEdge with
  | nil => exact h
  | cons a l ih =>
    rw [List.foldl_cons]
    by_cases hrest : a ∈ rest
    · rw [if_neg (not_not.2 hrest)]
      exact ih h
    · rw [if_pos hrest]
      exact ih h.insert

theorem mem_advance {l : List ε} : z ∈ advance g l nextEdge ↔ z ∈ nextEdge ∨ Met g.next l z := by
  induction l generalizing nextEdge with
  | nil => exact (or_iff_left not_false).symm
  | cons now rest ih => rw [advance, ih, mem_foldl_insert, or_assoc, Met]

theorem nodup_advance {l : List ε} (h : nextEdge.Nodup) : (advance g l nextEdge).Nodup := by
  induction l generalizing nextEdge with
  | nil => exact h
  | cons now rest ih => exact ih (nodup_foldl_insert h)

end Unmarked

/-! ### Both searches -/

section Search

variable [DecidableEq ε] (g : Graph ε) (o : SetOrder ε)

/-- The edge of a search after some passes. -/
def front (index : Bool) (x : ε) : ℕ → List ε
  | 0 => [x]
  | k + 1 => advance g (picks o k index (front index x k).length (front index x k)) []

/-- Both edges after some passes. -/
def edges (origin opt : ε) (k : ℕ) (index : Bool) : List ε :=
  if index then front g o true opt k else front g o false origin k

theorem isDescent_front (index : Bool) (x : ε) :
    IsDescent g.next x fun k => {z | z ∈ front g o index x k} := by
  have hmem : ∀ k z, z ∈ front g o index x (k + 1) ↔
      Met g.next (picks o k index (front g o index x k).length (front g o index x k)) z := by
    intro k z
    rw [front, mem_advance]
    exact or_iff_right List.not_mem_nil
  have hperm : ∀ k, (picks o k index (front g o index x k).length (front g o index x k)).Perm
      (front g o index x k) := fun k => perm_picks rfl
  refine ⟨Set.ext fun z => List.mem_singleton, fun k z hz => ?_, fun k z hz => ?_⟩
  · obtain ⟨y, hy, hz⟩ := ((hmem k z).1 hz).mem_successors
    exact ⟨y, (hperm k).mem_iff.1 hy, hz⟩
  · by_cases hwaits : z ∈ front g o index x k
    · exact .inr hwaits
    · obtain ⟨y, hy, hz⟩ := hz
      refine .inl ((hmem k z).2 (met_of_not_mem (fun h => hwaits ((hperm k).mem_iff.1 h)) ?_))
      exact ⟨y, (hperm k).mem_iff.2 hy, hz⟩

variable {g o} {index : Bool} {x origin opt : ε} {boundary : List ε} {fuel k : ℕ}

theorem nodup_front : (front g o index x k).Nodup := by
  cases k with
  | zero => exact List.nodup_singleton x
  | succ k => exact nodup_advance List.nodup_nil

/-- A pass of the loop. -/
theorem step_edges : step g o fuel k (step g o fuel k ⟨fun _ => 0, edges g o origin opt k⟩ false)
    true = ⟨fun _ => 0, edges g o origin opt (k + 1)⟩ := by
  rw [step_eq, step_eq]
  refine congrArg (State.mk _) (funext fun index => ?_)
  cases index <;> rfl

/-- The search from `opt` is at its end after this pass, and the other one is at the boundary. -/
def Crosses (g : Graph ε) (o : SetOrder ε) (origin opt : ε) (boundary : List ε) (k : ℕ) : Prop :=
  front g o true opt (k + 1) = [] ∧ ∃ expr ∈ front g o false origin (k + 1), expr ∈ boundary

theorem front_nil {n : ℕ} (h : front g o index x k = []) : front g o index x (k + n) = [] := by
  induction n with
  | zero => exact h
  | succ n ih =>
    rw [← Nat.add_assoc, front, ih]
    rfl

/-- What the loop returns. -/
theorem loop_spec {optDone r : Bool}
    (h : loop g o boundary fuel k ⟨fun _ => 0, edges g o origin opt k⟩ optDone = some r) :
    r = true ↔ ∃ j, k ≤ j ∧ Crosses g o origin opt boundary j := by
  induction fuel generalizing k optDone with
  | zero => cases h
  | succ fuel ih =>
    have hnext : ¬ Crosses g o origin opt boundary k →
        ((∃ j, k + 1 ≤ j ∧ Crosses g o origin opt boundary j) ↔
          ∃ j, k ≤ j ∧ Crosses g o origin opt boundary j) := by
      refine fun hnot => exists_congr fun j => and_congr_left fun hj => ?_
      refine ⟨Nat.le_of_succ_le, fun hle => Nat.lt_of_le_of_ne hle fun heq => hnot ?_⟩
      exact heq ▸ hj
    rw [loop] at h
    simp only [Nat.zero_and, ne_eq, not_true_eq_false, decide_false, step_edges,
      and_false, exists_false, if_false, and_true] at h
    by_cases hempty : edges g o origin opt k false = [] ∧ edges g o origin opt k true = []
    · rw [if_pos hempty] at h
      have hr : r = false := by
        rw [← Option.some.inj h]
        exact List.any_eq_false.2 fun _ _ => Bool.false_ne_true
      rw [hr]
      refine iff_of_false Bool.false_ne_true ?_
      rintro ⟨j, hj, -, expr, hexpr, -⟩
      obtain ⟨n, rfl⟩ := Nat.exists_eq_add_of_le hj
      have hnil : front g o false origin (k + (n + 1)) = [] := front_nil hempty.1
      rw [Nat.add_assoc, hnil] at hexpr
      exact absurd hexpr List.not_mem_nil
    · rw [if_neg hempty] at h
      by_cases hopt : edges g o origin opt (k + 1) true = []
      · rw [if_pos hopt] at h
        by_cases hmeets : ∃ expr ∈ edges g o origin opt (k + 1) false, expr ∈ boundary
        · rw [if_pos hmeets] at h
          exact iff_of_true (Option.some.inj h).symm ⟨k, le_rfl, hopt, hmeets⟩
        · rw [if_neg hmeets] at h
          exact (ih h).trans (hnext fun hcross => hmeets hcross.2)
      · rw [if_neg hopt] at h
        exact (ih h).trans (hnext fun hcross => hopt hcross.1)

/-- Where both searches are at their ends, so is the loop. -/
theorem loop_isSome {n : ℕ} {optDone : Bool} (horigin : front g o false origin (k + n) = [])
    (hopt : front g o true opt (k + n) = []) (hn : n < fuel) :
    (loop g o boundary fuel k ⟨fun _ => 0, edges g o origin opt k⟩ optDone).isSome := by
  induction fuel generalizing k n optDone with
  | zero => exact absurd hn (Nat.not_lt_zero n)
  | succ fuel ih =>
    rw [loop]
    by_cases hempty : edges g o origin opt k false = [] ∧ edges g o origin opt k true = []
    · rw [if_pos hempty]
      rfl
    · have hrest : ∀ {optDone : Bool}, (loop g o boundary fuel (k + 1)
          ⟨fun _ => 0, edges g o origin opt (k + 1)⟩ optDone).isSome := by
        intro optDone
        cases n with
        | zero => exact absurd ⟨horigin, hopt⟩ hempty
        | succ n =>
          rw [← Nat.add_assoc, Nat.add_right_comm] at horigin hopt
          exact ih horigin hopt (Nat.lt_of_succ_lt_succ hn)
      rw [if_neg hempty, step_edges]
      dsimp only
      split_ifs
      · rfl
      · rfl
      · exact hrest
      · exact hrest

/-- **The search ends**, and returns whether one of its passes crosses. -/
theorem crossBoundary_spec (hacyclic : Acyclic g.next) (o : SetOrder ε) (origin opt : ε)
    (boundary : List ε) : ∃ fuel₀, ∀ fuel, fuel₀ ≤ fuel → ∃ r,
      crossBoundary g o origin opt boundary fuel = some r ∧
        (r = true ↔ ∃ k, Crosses g o origin opt boundary k) := by
  by_cases hboundary : boundary = []
  · refine ⟨0, fun fuel _ => ⟨false, if_pos hboundary, iff_of_false Bool.false_ne_true ?_⟩⟩
    rintro ⟨k, -, expr, -, hexpr⟩
    exact absurd (hboundary ▸ hexpr) List.not_mem_nil
  · have hend : ∀ index x n, (∀ k, n < k → level g.next x k = ∅) → ∀ k, n < k →
        front g o index x k = [] := by
      intro index x n hn k hk
      refine List.eq_nil_iff_forall_not_mem.2 fun z hz => ?_
      have hlevel := (isDescent_front g o index x).subset_level k hz
      rw [hn k hk] at hlevel
      exact hlevel
    obtain ⟨n, hn⟩ := exists_height hacyclic origin
    obtain ⟨m, hm⟩ := exists_height hacyclic opt
    refine ⟨max n m + 2, fun fuel hfuel => ?_⟩
    have hedges : (fun index => if index then [opt] else [origin]) = edges g o origin opt 0 := by
      funext index
      cases index <;> rfl
    have hsome : (loop g o boundary fuel 0 ⟨fun _ => 0, edges g o origin opt 0⟩ false).isSome :=
      loop_isSome (n := max n m + 1) (hend false origin n hn _ (by omega))
        (hend true opt m hm _ (by omega)) (by omega)
    obtain ⟨r, hr⟩ := Option.isSome_iff_exists.1 hsome
    refine ⟨r, ?_, (loop_spec hr).trans (exists_congr fun j => and_iff_right (Nat.zero_le j))⟩
    rw [crossBoundary, if_neg hboundary, hedges, hr]

/-- An order that goes through its edges as these lists say. -/
def setOrder (order : Bool → ℕ → List ε) (origin : ε) : SetOrder ε where
  begin k index l := ((order index k).find? fun expr => expr ∈ l).getD (l.headD origin)
  begin_mem k index l hne := by
    cases hfind : (order index k).find? fun expr => expr ∈ l with
    | none =>
      obtain ⟨a, l, rfl⟩ := List.exists_cons_of_ne_nil hne
      exact List.mem_cons_self
    | some expr =>
      have hmem := List.find?_some hfind
      exact of_decide_eq_true hmem

theorem picks_setOrder {order : Bool → ℕ → List ε} (pre : List ε) {suf l : List ε}
    (hsplit : order index k = pre ++ suf) (hnodup : (pre ++ suf).Nodup) (hperm : l.Perm suf) :
    picks (setOrder order origin) k index l.length l = suf := by
  induction suf generalizing pre l with
  | nil => rw [List.perm_nil.1 hperm, List.length_nil, picks]
  | cons a suf ih =>
    have hne : l ≠ [] := fun hnil => by
      rw [hnil] at hperm
      exact absurd hperm.symm (List.not_perm_nil_cons _ _ ∘ List.Perm.symm)
    have ha : a ∈ l := hperm.mem_iff.2 List.mem_cons_self
    -- what comes before was gone through
    have hbefore : pre.find? (fun expr => expr ∈ l) = none := by
      refine List.find?_eq_none.2 fun b hb hbl => ?_
      exact (List.nodup_append.1 hnodup).2.2 b hb b (hperm.mem_iff.1 (of_decide_eq_true hbl)) rfl
    have hbegin : (setOrder order origin).begin k index l = a := by
      show ((order index k).find? fun expr => expr ∈ l).getD (l.headD origin) = a
      have hfirst : (a :: suf).find? (fun expr => expr ∈ l) = some a := by
        rw [List.find?_cons, decide_eq_true ha]
      rw [hsplit, List.find?_append, hbefore, Option.none_or, hfirst]
      rfl
    obtain ⟨n, hn⟩ := Nat.exists_eq_add_one_of_ne_zero (mt List.length_eq_zero_iff.1 hne)
    have hrest : (l.erase a).length = n := by
      rw [List.length_erase_of_mem ha, hn, Nat.add_sub_cancel]
    rw [hn, picks, if_neg hne, hbegin, ← hrest, ih (pre ++ [a]) ?_ ?_ ?_]
    · rw [hsplit, List.append_assoc]
      rfl
    · rwa [List.append_assoc]
    · exact (hperm.erase a).trans (by rw [List.erase_cons_head])

/-- **Every pair of descents is searched in some order.** -/
theorem exists_setOrder (hacyclic : Acyclic g.next) {S T : ℕ → Set ε}
    (hS : IsDescent g.next origin S) (hT : IsDescent g.next opt T) :
    ∃ o : SetOrder ε, ∀ k, (∀ z, z ∈ front g o false origin k ↔ z ∈ S k) ∧
      ∀ z, z ∈ front g o true opt k ↔ z ∈ T k := by
  have hlists : ∀ {x : ε} {U : ℕ → Set ε}, IsDescent g.next x U → ∃ order : ℕ → List ε, ∀ k,
      (order k).Nodup ∧ (∀ z, z ∈ order k ↔ z ∈ U k) ∧
        ∀ z, Met g.next (order k) z ↔ z ∈ U (k + 1) := fun hU =>
    Classical.axiomOfChoice fun k => exists_order hacyclic (hU.finite k) (hU.met k) (hU.kept k)
  obtain ⟨forth, hforth⟩ := hlists hS
  obtain ⟨back, hback⟩ := hlists hT
  have hfront : ∀ {x : ε} {U : ℕ → Set ε} {order : Bool → ℕ → List ε} {index : Bool},
      IsDescent g.next x U → (∀ k, (order index k).Nodup ∧ (∀ z, z ∈ order index k ↔ z ∈ U k) ∧
        ∀ z, Met g.next (order index k) z ↔ z ∈ U (k + 1)) →
      ∀ k z, z ∈ front g (setOrder order origin) index x k ↔ z ∈ U k := by
    intro x U order index hU horder k
    induction k with
    | zero =>
      intro z
      rw [hU.start]
      exact List.mem_singleton
    | succ k ih =>
      intro z
      obtain ⟨hnodup, hmem, hmet⟩ := horder k
      have hperm : (front g (setOrder order origin) index x k).Perm (order index k) :=
        (List.perm_ext_iff_of_nodup nodup_front hnodup).2 fun z => (ih z).trans (hmem z).symm
      rw [front, picks_setOrder [] rfl hnodup hperm, mem_advance, ← hmet]
      exact or_iff_right List.not_mem_nil
  refine ⟨setOrder (fun index => if index then back else forth) origin, fun k => ⟨?_, ?_⟩⟩
  · exact hfront hS hforth k
  · exact hfront hT hback k

end Search

/-! ### What the function decides -/

/-- Some expression of the boundary is `origin` or an input of it, directly or not, and not of
`opt`. -/
def CutOff (g : Graph ε) (origin opt : ε) (boundary : List ε) : Prop :=
  ∃ expr ∈ boundary, Relation.ReflTransGen (Edge g.next) origin expr ∧
    ¬ Relation.ReflTransGen (Edge g.next) opt expr

/-- In every order of the sets the search ends and tells whether an expression is cut off, and a
rewrite is undone exactly then. -/
def Decides [DecidableEq ε] (g : Graph ε) (origin opt : ε) (boundary : List ε) : Prop :=
  ∀ o : SetOrder ε, ∃ fuel₀, ∀ fuel, fuel₀ ≤ fuel → ∃ r,
    crossBoundary g o origin opt boundary fuel = some r ∧
      (r = true ↔ CutOff g origin opt boundary) ∧
      (merge g o origin opt boundary fuel true = some .undone ↔ CutOff g origin opt boundary)

/-- If an expression is cut off, every descent from `origin` meets the boundary below all walks from
`opt`; if none is, every descent from `opt` is as deep as all walks from `origin` to the
boundary. -/
structure Separated (g : Graph ε) (origin opt : ε) (boundary : List ε) : Prop where
  cut : CutOff g origin opt boundary → ∀ S, IsDescent g.next origin S →
    ∀ n, (level g.next opt n).Nonempty → ∃ k, n < k ∧ ∃ expr ∈ boundary, expr ∈ S k
  whole : ¬ CutOff g origin opt boundary → ∀ T, IsDescent g.next opt T →
    ∀ k, 0 < k → (∃ expr ∈ boundary, expr ∈ level g.next origin k) → (T k).Nonempty

theorem separated_of_decides [DecidableEq ε] {g : Graph ε} (hacyclic : Acyclic g.next)
    {origin opt : ε} {boundary : List ε} (h : Decides g origin opt boundary) :
    Separated g origin opt boundary := by
  refine ⟨fun hcut S hS n hn => ?_, fun hwhole T hT k hk hmeets => ?_⟩
  · obtain ⟨o, ho⟩ := exists_setOrder hacyclic hS (isDescent_level opt)
    obtain ⟨fuel, hfuel⟩ := h o
    obtain ⟨fuel', hfuel'⟩ := crossBoundary_spec hacyclic o origin opt boundary
    obtain ⟨r, hr, hreturns, -⟩ := hfuel (max fuel fuel') (le_max_left _ _)
    obtain ⟨r', hr', hspec⟩ := hfuel' (max fuel fuel') (le_max_right _ _)
    obtain rfl : r = r' := Option.some.inj (hr.symm.trans hr')
    obtain ⟨k, hend, expr, hexpr, hboundary⟩ := hspec.1 (hreturns.2 hcut)
    refine ⟨k + 1, ?_, expr, hboundary, ((ho (k + 1)).1 expr).1 hexpr⟩
    by_contra hle
    obtain ⟨z, hz⟩ := level_nonempty_of_le hn (not_lt.1 hle)
    have hmem := ((ho (k + 1)).2 z).2 hz
    rw [hend] at hmem
    exact List.not_mem_nil hmem
  · by_contra hempty
    obtain ⟨o, ho⟩ := exists_setOrder hacyclic (isDescent_level origin) hT
    obtain ⟨fuel, hfuel⟩ := h o
    obtain ⟨fuel', hfuel'⟩ := crossBoundary_spec hacyclic o origin opt boundary
    obtain ⟨r, hr, hreturns, -⟩ := hfuel (max fuel fuel') (le_max_left _ _)
    obtain ⟨r', hr', hspec⟩ := hfuel' (max fuel fuel') (le_max_right _ _)
    obtain rfl : r = r' := Option.some.inj (hr.symm.trans hr')
    obtain ⟨k, rfl⟩ := Nat.exists_eq_add_one_of_ne_zero hk.ne'
    obtain ⟨expr, hboundary, hexpr⟩ := hmeets
    refine hwhole (hreturns.1 (hspec.2 ⟨k, ?_, expr, ((ho (k + 1)).1 expr).2 hexpr, hboundary⟩))
    exact List.eq_nil_iff_forall_not_mem.2 fun z hz => hempty ⟨z, ((ho (k + 1)).2 z).1 hz⟩

/-- **The function decides what is cut off**, exactly if the boundary is met deeper than `opt`
reaches where something is cut off, and not as deep where nothing is. -/
theorem decides_iff [DecidableEq ε] {g : Graph ε} (hacyclic : Acyclic g.next) {origin opt : ε}
    {boundary : List ε} :
    Decides g origin opt boundary ↔ Separated g origin opt boundary := by
  refine ⟨separated_of_decides hacyclic, fun h o => ?_⟩
  have hS := isDescent_front g o false origin
  have hT := isDescent_front g o true opt
  have hcrosses : (∃ k, Crosses g o origin opt boundary k) ↔ CutOff g origin opt boundary := by
    by_cases hcut : CutOff g origin opt boundary
    · obtain ⟨n, hn, hend⟩ := exists_depth hacyclic opt
      obtain ⟨k, hk, expr, hboundary, hexpr⟩ := h.cut hcut _ hS n hn
      obtain ⟨k, rfl⟩ := Nat.exists_eq_add_one_of_ne_zero (Nat.ne_zero_of_lt hk)
      refine iff_of_true ⟨k, ?_, expr, hexpr, hboundary⟩ hcut
      refine List.eq_nil_iff_forall_not_mem.2 fun z hz => ?_
      have hlevel := hT.subset_level (k + 1) hz
      rw [hend (k + 1) hk] at hlevel
      exact hlevel
    · refine iff_of_false ?_ hcut
      rintro ⟨k, hend, expr, hexpr, hboundary⟩
      obtain ⟨z, hz⟩ := h.whole hcut _ hT (k + 1) (Nat.succ_pos k)
        ⟨expr, hboundary, hS.subset_level (k + 1) hexpr⟩
      have hmem : z ∈ front g o true opt (k + 1) := hz
      rw [hend] at hmem
      exact List.not_mem_nil hmem
  obtain ⟨fuel₀, hfuel⟩ := crossBoundary_spec hacyclic o origin opt boundary
  refine ⟨fuel₀, fun fuel hle => ?_⟩
  obtain ⟨r, hr, hspec⟩ := hfuel fuel hle
  refine ⟨r, hr, hspec.trans hcrosses, Iff.trans ?_ (hspec.trans hcrosses)⟩
  rw [merge, if_pos rfl, hr]
  cases r
  · exact iff_of_false (fun h => by cases h) Bool.false_ne_true
  · exact iff_of_true rfl rfl

/-- Expressions `0` and `2` with the same input `1`. -/
def sharedInput : Graph ℕ where
  inputs
    | 0 => [some 1]
    | 2 => [some 1, none]
    | _ => []

/-- Nothing is cut off where both have the same input. -/
theorem decides_sharedInput : Decides sharedInput 0 2 [1] := by
  have hacyclic : Acyclic sharedInput.next := acyclic_of_rank (fun x => if x = 1 then 0 else 1) (by
    rintro (_ | _ | _ | x) y hy
    · obtain rfl := List.mem_singleton.1 hy
      decide
    · exact absurd hy List.not_mem_nil
    · obtain rfl := List.mem_singleton.1 hy
      decide
    · exact absurd hy List.not_mem_nil)
  refine (decides_iff hacyclic).2 ⟨fun hcut => ?_, fun _ T hT k hk hmeets => ?_⟩
  · obtain ⟨expr, hboundary, -, hnot⟩ := hcut
    obtain rfl := List.mem_singleton.1 hboundary
    exact absurd (.single (List.mem_singleton.2 rfl)) hnot
  · obtain ⟨expr, -, hexpr⟩ := hmeets
    match k, hk, hexpr with
    | 1, _, _ =>
      have hinput : (1 : ℕ) ∈ successors sharedInput.next (T 0) :=
        ⟨2, hT.start ▸ rfl, List.mem_singleton.2 rfl⟩
      refine ⟨1, (hT.kept 0 hinput).resolve_right fun h => ?_⟩
      rw [hT.start] at h
      exact absurd h (by decide)
    | k + 2, _, hexpr =>
      obtain ⟨y, hy, hexpr⟩ := mem_level_succ.1 hexpr
      obtain rfl := List.mem_singleton.1 hy
      obtain ⟨y, hy, -⟩ := mem_level_succ.1 hexpr
      exact absurd hy List.not_mem_nil

/-- Expression `2` has the input `1`, which `0` has through `3`. -/
def nestedInput : Graph ℕ where
  inputs
    | 0 => [some 3]
    | 2 => [some 1]
    | 3 => [some 1]
    | _ => []

/-- The boundary is met after the search from `2` is at its end, though `2` reaches it. -/
theorem not_decides_nestedInput : ¬ Decides nestedInput 0 2 [1] := by
  intro h
  have hacyclic : Acyclic nestedInput.next :=
    acyclic_of_rank (fun x => if x = 0 then 2 else if x = 1 then 0 else 1) (by
      rintro (_ | _ | _ | _ | x) y hy
      · obtain rfl := List.mem_singleton.1 hy
        decide
      · exact absurd hy List.not_mem_nil
      · obtain rfl := List.mem_singleton.1 hy
        decide
      · obtain rfl := List.mem_singleton.1 hy
        decide
      · exact absurd hy List.not_mem_nil)
  have hnot : ¬ CutOff nestedInput 0 2 [1] := by
    rintro ⟨expr, hboundary, -, hnot⟩
    obtain rfl := List.mem_singleton.1 hboundary
    exact hnot (.single (List.mem_singleton.2 rfl))
  have hmeets : (1 : ℕ) ∈ level nestedInput.next 0 2 :=
    ⟨3, ⟨0, rfl, List.mem_singleton.2 rfl⟩, List.mem_singleton.2 rfl⟩
  obtain ⟨z, hz⟩ := (separated_of_decides hacyclic h).whole hnot _ (isDescent_level 2) 2
    (by decide) ⟨1, List.mem_singleton.2 rfl, hmeets⟩
  obtain ⟨y, hy, hz⟩ := mem_level_succ.1 hz
  obtain rfl := List.mem_singleton.1 hy
  obtain ⟨y, hy, -⟩ := mem_level_succ.1 hz
  exact absurd hy List.not_mem_nil

end Mnn.Converter.TemplateMerge
