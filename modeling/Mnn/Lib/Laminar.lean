import Mathlib.Data.Set.Card
import Mathlib.Order.CompletePartialOrder
import Mathlib.Logic.Relation
import Mathlib.Tactic

/-!
# Forests of nested cells

Nodes are numbered, every node names its parent and owns a set of points, its cell.  A set `L` of
nodes is in hand (the leaves), and a node is held when it is in hand or is the parent of a held node.

* `Held parent L`: the nodes that are held;
* `Forest parent cell next L`: held children lie inside their parents, held siblings are disjoint;
* `Forest.disjoint`: any two distinct leaves are disjoint;
* `Forest.split`, `Forest.merge`, `Forest.add`, `Forest.drop`: the four ways a forest changes;
* `Counted parent L F use owed`: `use` counts the held children outside the pool `F`, up to one
  decrement still owed; `Counted.take`, `Counted.put`, `Counted.pay` and the four changes keep it;
* `roots parent L`: the held nodes without a parent, and what the four changes make of them;
* `Kept parent L use owed`: no held node has a count of zero without being a leaf;
  `Kept.exists_leaf`: then every node outside the pool has a leaf outside the pool below it.
-/

namespace Lib

variable {β : Type*} {parent parent' : ℕ → Option ℕ} {cell cell' : ℕ → Set β} {next : ℕ}
  {L L' : Set ℕ}

/-- The nodes in hand and their ancestors. -/
inductive Held (parent : ℕ → Option ℕ) (L : Set ℕ) : ℕ → Prop
  | leaf {n : ℕ} (hn : n ∈ L) : Held parent L n
  | up {c n : ℕ} (hc : Held parent L c) (hp : parent c = some n) : Held parent L n

/-- Cells are nested along the parents and disjoint between siblings; roots are each other's
siblings.  Nodes are numbered below `next`, parents before their children. -/
structure Forest (parent : ℕ → Option ℕ) (cell : ℕ → Set β) (next : ℕ) (L : Set ℕ) : Prop where
  lt_next : ∀ n, Held parent L n → n < next
  parent_lt : ∀ n p, Held parent L n → parent n = some p → p < n
  leaf_childless : ∀ n ∈ L, ∀ c, Held parent L c → parent c ≠ some n
  within : ∀ n p, Held parent L n → parent n = some p → cell n ⊆ cell p
  siblings : ∀ a b, Held parent L a → Held parent L b → a ≠ b → parent a = parent b →
    Disjoint (cell a) (cell b)

/-- `a` is `b` or an ancestor of `b`. -/
def Anc (parent : ℕ → Option ℕ) (a b : ℕ) : Prop :=
  Relation.ReflTransGen (fun p c => parent c = some p) a b

namespace Forest

/-! ### Disjointness -/

theorem anc_subset (hF : Forest parent cell next L) {a b : ℕ} (hb : Held parent L b)
    (h : Anc parent a b) : Held parent L a ∧ cell b ⊆ cell a ∧ a ≤ b := by
  induction h with
  | refl => exact ⟨hb, subset_rfl, le_rfl⟩
  | tail _ hp ih =>
    obtain ⟨ha, hsub, hle⟩ := ih (.up hb hp)
    exact ⟨ha, (hF.within _ _ hb hp).trans hsub, hle.trans (hF.parent_lt _ _ hb hp).le⟩

/-- Two held nodes are comparable or disjoint. -/
theorem comparable (hF : Forest parent cell next L) {a b : ℕ} (ha : Held parent L a)
    (hb : Held parent L b) : Anc parent a b ∨ Anc parent b a ∨ Disjoint (cell a) (cell b) := by
  induction hk : a + b using Nat.strong_induction_on generalizing a b with
  | _ k ih =>
    subst hk
    -- the younger of the two is replaced by its parent
    have climb : ∀ a b : ℕ, Held parent L a → Held parent L b → b < a →
        (∀ p, parent a = some p →
          Anc parent p b ∨ Anc parent b p ∨ Disjoint (cell p) (cell b)) →
        (∀ q, parent b = some q →
          Anc parent a q ∨ Anc parent q a ∨ Disjoint (cell a) (cell q)) →
        Anc parent b a ∨ Disjoint (cell a) (cell b) := by
      intro a b ha hb hlt hup hub
      cases hpa : parent a with
      | some p =>
        rcases hup p hpa with h | h | h
        · rcases Relation.ReflTransGen.cases_head h with rfl | ⟨c, hpc, hcb⟩
          · exact .inl (.single hpa)
          · obtain ⟨hc, hsub, hle⟩ := hF.anc_subset hb hcb
            have hne : a ≠ c := by omega
            exact .inr ((hF.siblings a c ha hc hne (hpa.trans hpc.symm)).mono_right hsub)
        · exact .inl (h.tail hpa)
        · exact .inr (h.mono_left (hF.within _ _ ha hpa))
      | none =>
        cases hpb : parent b with
        | none => exact .inr (hF.siblings a b ha hb (by omega) (hpa.trans hpb.symm))
        | some q =>
          have hq : q < b := hF.parent_lt _ _ hb hpb
          have hsub := hF.within _ _ hb hpb
          rcases hub q hpb with h | h | h
          · have := (hF.anc_subset (.up hb hpb) h).2.2
            omega
          · rcases Relation.ReflTransGen.cases_tail h with rfl | ⟨c, -, hca⟩
            · omega
            · rw [hpa] at hca
              cases hca
          · exact .inr (h.mono_right hsub)
    rcases lt_trichotomy a b with hlt | rfl | hlt
    · have h := climb b a hb ha hlt
        (fun p hp => ih (p + a) (by have := hF.parent_lt _ _ hb hp; omega) (.up hb hp) ha rfl)
        (fun q hq => ih (b + q) (by have := hF.parent_lt _ _ ha hq; omega) hb (.up ha hq) rfl)
      rcases h with h | h
      · exact .inl h
      · exact .inr (.inr h.symm)
    · exact .inl .refl
    · exact .inr (climb a b ha hb hlt
        (fun p hp => ih (p + b) (by have := hF.parent_lt _ _ ha hp; omega) (.up ha hp) hb rfl)
        (fun q hq => ih (a + q) (by have := hF.parent_lt _ _ hb hq; omega) ha (.up hb hq) rfl))

/-- A leaf is an ancestor of nothing but itself. -/
theorem eq_of_leaf_anc (hF : Forest parent cell next L) {a b : ℕ} (ha : a ∈ L)
    (hb : Held parent L b) (h : Anc parent a b) : a = b := by
  rcases Relation.ReflTransGen.cases_head h with h | ⟨c, hpc, hcb⟩
  · exact h
  · exact absurd hpc (hF.leaf_childless a ha c (hF.anc_subset hb hcb).1)

/-- **Distinct leaves are disjoint.** -/
theorem disjoint (hF : Forest parent cell next L) {a b : ℕ} (ha : a ∈ L) (hb : b ∈ L)
    (hab : a ≠ b) : Disjoint (cell a) (cell b) := by
  rcases hF.comparable (.leaf ha) (.leaf hb) with h | h | h
  · exact absurd (hF.eq_of_leaf_anc ha (.leaf hb) h) hab
  · exact absurd (hF.eq_of_leaf_anc hb (.leaf ha) h).symm hab
  · exact h

/-- Every held node lies inside a held root. -/
theorem exists_root (hF : Forest parent cell next L) {n : ℕ} (hn : Held parent L n) :
    ∃ r, Held parent L r ∧ parent r = none ∧ cell n ⊆ cell r := by
  induction n using Nat.strong_induction_on with
  | _ n ih =>
    cases hp : parent n with
    | none => exact ⟨n, hn, hp, subset_rfl⟩
    | some p =>
      obtain ⟨r, hr, hroot, hsub⟩ := ih p (hF.parent_lt _ _ hn hp) (.up hn hp)
      exact ⟨r, hr, hroot, (hF.within _ _ hn hp).trans hsub⟩

end Forest

/-! ### What is held after a change -/

/-- Only the parents of held nodes matter. -/
theorem Held.congr (hp : ∀ n, Held parent L n → parent' n = parent n) {n : ℕ}
    (hn : Held parent L n) : Held parent' L n := by
  induction hn with
  | leaf hn => exact .leaf hn
  | up hc hpc ih => exact .up ih ((hp _ hc).trans hpc)

theorem Held.mono (hL : L ⊆ L') {n : ℕ} (hn : Held parent L n) : Held parent L' n := by
  induction hn with
  | leaf hn => exact .leaf (hL hn)
  | up _ hpc ih => exact .up ih hpc

/-- A leaf is exchanged for two new nodes below it. -/
theorem held_split (hF : Forest parent cell next L) (hp : ∀ n < next, parent' n = parent n) {x : ℕ}
    (hx : x ∈ L) (ha : parent' next = some x) (hb : parent' (next + 1) = some x) {n : ℕ} :
    Held parent' (insert next (insert (next + 1) (L \ {x}))) n ↔
      Held parent L n ∨ n = next ∨ n = next + 1 := by
  constructor
  · intro h
    induction h with
    | leaf hn =>
      rcases hn with rfl | rfl | ⟨hn, -⟩
      · exact .inr (.inl rfl)
      · exact .inr (.inr rfl)
      · exact .inl (.leaf hn)
    | up _ hpc ih =>
      left
      rcases ih with h | rfl | rfl
      · exact .up h ((hp _ (hF.lt_next _ h)).symm.trans hpc)
      · cases ha.symm.trans hpc
        exact .leaf hx
      · cases hb.symm.trans hpc
        exact .leaf hx
  · rintro (h | rfl | rfl)
    · induction h with
      | @leaf n hn =>
        by_cases hnx : n = x
        · subst hnx
          exact .up (.leaf (.inl rfl)) ha
        · exact .leaf (.inr (.inr ⟨hn, hnx⟩))
      | up hc hpc ih => exact .up ih ((hp _ (hF.lt_next _ hc)).trans hpc)
    · exact .leaf (.inl rfl)
    · exact .leaf (.inr (.inl rfl))

/-- All children of a node are dropped and the node itself is taken in hand. -/
theorem held_merge (hF : Forest parent cell next L) {p : ℕ} (hp : Held parent L p)
    (hc : ∀ c, Held parent L c → parent c = some p → c ∈ L) {n : ℕ} :
    Held parent (insert p {c ∈ L | parent c ≠ some p}) n ↔ Held parent L n ∧ parent n ≠ some p := by
  have hpp : parent p ≠ some p := fun h => lt_irrefl p (hF.parent_lt p p hp h)
  constructor
  · intro h
    induction h with
    | leaf hn =>
      rcases hn with rfl | ⟨hn, hnp⟩
      · exact ⟨hp, hpp⟩
      · exact ⟨.leaf hn, hnp⟩
    | up _ hpc ih =>
      refine ⟨.up ih.1 hpc, fun h => ?_⟩
      exact hF.leaf_childless _ (hc _ (.up ih.1 hpc) h) _ ih.1 hpc
  · rintro ⟨h, hnp⟩
    induction h with
    | leaf hn => exact .leaf (.inr ⟨hn, hnp⟩)
    | @up c n hc hpc ih =>
      by_cases hcp : parent c = some p
      · cases hcp.symm.trans hpc
        exact .leaf (.inl rfl)
      · exact .up (ih hcp) hpc

/-- A new root is taken in hand. -/
theorem held_add (hF : Forest parent cell next L) (hp : ∀ n < next, parent' n = parent n)
    (hr : parent' next = none) {n : ℕ} :
    Held parent' (insert next L) n ↔ Held parent L n ∨ n = next := by
  constructor
  · intro h
    induction h with
    | leaf hn =>
      rcases hn with rfl | hn
      · exact .inr rfl
      · exact .inl (.leaf hn)
    | up _ hpc ih =>
      left
      rcases ih with h | rfl
      · exact .up h ((hp _ (hF.lt_next _ h)).symm.trans hpc)
      · rw [hr] at hpc
        cases hpc
  · rintro (h | rfl)
    · exact (h.congr fun n hn => hp n (hF.lt_next n hn)).mono (Set.subset_insert _ _)
    · exact .leaf (.inl rfl)

/-- Roots in hand are let go. -/
theorem held_drop (hF : Forest parent cell next L) {R : Set ℕ}
    (hR : ∀ r ∈ R, r ∈ L ∧ parent r = none) {n : ℕ} :
    Held parent (L \ R) n ↔ Held parent L n ∧ n ∉ R := by
  constructor
  · intro h
    refine ⟨h.mono Set.sdiff_subset, fun hn => ?_⟩
    cases h with
    | leaf hn' => exact hn'.2 hn
    | up hc hpc => exact hF.leaf_childless _ (hR _ hn).1 _ (hc.mono Set.sdiff_subset) hpc
  · rintro ⟨h, hnR⟩
    induction h with
    | leaf hn => exact .leaf ⟨hn, hnR⟩
    | @up c n hc hpc ih =>
      refine .up (ih fun hcR => ?_) hpc
      rw [(hR c hcR).2] at hpc
      cases hpc

/-! ### The forest after a change -/

namespace Forest

theorem split (hF : Forest parent cell next L) (hp : ∀ n < next, parent' n = parent n)
    (hc : ∀ n < next, cell' n = cell n) {x : ℕ} (hx : x ∈ L) (ha : parent' next = some x)
    (hb : parent' (next + 1) = some x) (hac : cell' next ⊆ cell x)
    (hbc : cell' (next + 1) ⊆ cell x) (hab : Disjoint (cell' next) (cell' (next + 1))) :
    Forest parent' cell' (next + 2) (insert next (insert (next + 1) (L \ {x}))) := by
  have hxn : x < next := hF.lt_next x (.leaf hx)
  have old : ∀ n, Held parent L n → parent' n = parent n ∧ cell' n = cell n := fun n hn =>
    ⟨hp n (hF.lt_next n hn), hc n (hF.lt_next n hn)⟩
  have child : ∀ n, Held parent L n → parent' n ≠ some x := fun n hn => by
    rw [(old n hn).1]
    exact hF.leaf_childless x hx n hn
  constructor
  · intro n hn
    rcases (held_split hF hp hx ha hb).1 hn with h | rfl | rfl
    · exact (hF.lt_next n h).trans (by omega)
    · omega
    · omega
  · intro n p hn hpn
    rcases (held_split hF hp hx ha hb).1 hn with h | rfl | rfl
    · exact hF.parent_lt n p h ((old n h).1.symm.trans hpn)
    · cases ha.symm.trans hpn
      exact hxn
    · cases hb.symm.trans hpn
      omega
  · intro n hn c hcn hpc
    have hnx : n ≠ x := by
      rcases hn with rfl | rfl | ⟨-, hne⟩
      · omega
      · omega
      · exact hne
    rcases (held_split hF hp hx ha hb).1 hcn with h | rfl | rfl
    · rw [(old c h).1] at hpc
      rcases hn with rfl | rfl | ⟨hn, -⟩
      · exact absurd (hF.parent_lt c _ h hpc) (by have := hF.lt_next c h; omega)
      · exact absurd (hF.parent_lt c _ h hpc) (by have := hF.lt_next c h; omega)
      · exact hF.leaf_childless n hn c h hpc
    · exact hnx (Option.some.inj (hpc.symm.trans ha))
    · exact hnx (Option.some.inj (hpc.symm.trans hb))
  · intro n p hn hpn
    rcases (held_split hF hp hx ha hb).1 hn with h | rfl | rfl
    · rw [(old n h).1] at hpn
      rw [(old n h).2, hc p ((hF.parent_lt n p h hpn).trans (hF.lt_next n h))]
      exact hF.within n p h hpn
    · cases ha.symm.trans hpn
      rwa [hc x hxn]
    · cases hb.symm.trans hpn
      rwa [hc x hxn]
  · intro a b hha hhb hne hpp
    rcases (held_split hF hp hx ha hb).1 hha with h | rfl | rfl <;>
      rcases (held_split hF hp hx ha hb).1 hhb with h' | rfl | rfl
    · rw [(old a h).1, (old b h').1] at hpp
      rw [(old a h).2, (old b h').2]
      exact hF.siblings a b h h' hne hpp
    · exact absurd (hpp.trans ha) (child a h)
    · exact absurd (hpp.trans hb) (child a h)
    · exact absurd (hpp.symm.trans ha) (child b h')
    · exact absurd rfl hne
    · exact hab
    · exact absurd (hpp.symm.trans hb) (child b h')
    · exact hab.symm
    · exact absurd rfl hne

theorem merge (hF : Forest parent cell next L) {p : ℕ} (hp : Held parent L p)
    (hc : ∀ c, Held parent L c → parent c = some p → c ∈ L) :
    Forest parent cell next (insert p {c ∈ L | parent c ≠ some p}) := by
  have held : ∀ n, Held parent (insert p {c ∈ L | parent c ≠ some p}) n → Held parent L n :=
    fun n hn => ((held_merge hF hp hc).1 hn).1
  constructor
  · exact fun n hn => hF.lt_next n (held n hn)
  · exact fun n q hn => hF.parent_lt n q (held n hn)
  · intro n hn c hcn hpc
    obtain ⟨hcL, hcp⟩ := (held_merge hF hp hc).1 hcn
    rcases hn with rfl | ⟨hn, -⟩
    · exact hcp hpc
    · exact hF.leaf_childless n hn c hcL hpc
  · exact fun n q hn => hF.within n q (held n hn)
  · exact fun a b ha hb => hF.siblings a b (held a ha) (held b hb)

theorem add (hF : Forest parent cell next L) (hp : ∀ n < next, parent' n = parent n)
    (hc : ∀ n < next, cell' n = cell n) (hr : parent' next = none)
    (hd : ∀ r, Held parent L r → parent r = none → Disjoint (cell' next) (cell r)) :
    Forest parent' cell' (next + 1) (insert next L) := by
  have old : ∀ n, Held parent L n → parent' n = parent n ∧ cell' n = cell n := fun n hn =>
    ⟨hp n (hF.lt_next n hn), hc n (hF.lt_next n hn)⟩
  constructor
  · intro n hn
    rcases (held_add hF hp hr).1 hn with h | rfl
    · exact (hF.lt_next n h).trans (by omega)
    · omega
  · intro n p hn hpn
    rcases (held_add hF hp hr).1 hn with h | rfl
    · exact hF.parent_lt n p h ((old n h).1.symm.trans hpn)
    · rw [hr] at hpn
      cases hpn
  · intro n hn c hcn hpc
    rcases (held_add hF hp hr).1 hcn with h | rfl
    · rw [(old c h).1] at hpc
      rcases hn with rfl | hn
      · exact absurd (hF.parent_lt c _ h hpc) (by have := hF.lt_next c h; omega)
      · exact hF.leaf_childless n hn c h hpc
    · rw [hr] at hpc
      cases hpc
  · intro n p hn hpn
    rcases (held_add hF hp hr).1 hn with h | rfl
    · rw [(old n h).1] at hpn
      rw [(old n h).2, hc p ((hF.parent_lt n p h hpn).trans (hF.lt_next n h))]
      exact hF.within n p h hpn
    · rw [hr] at hpn
      cases hpn
  · intro a b hha hhb hne hpp
    rcases (held_add hF hp hr).1 hha with h | rfl <;>
      rcases (held_add hF hp hr).1 hhb with h' | rfl
    · rw [(old a h).1, (old b h').1] at hpp
      rw [(old a h).2, (old b h').2]
      exact hF.siblings a b h h' hne hpp
    · rw [(old a h).2]
      exact (hd a h ((old a h).1.symm.trans (hpp.trans hr))).symm
    · rw [(old b h').2]
      exact hd b h' ((old b h').1.symm.trans (hpp.symm.trans hr))
    · exact absurd rfl hne

theorem drop (hF : Forest parent cell next L) {R : Set ℕ}
    (hR : ∀ r ∈ R, r ∈ L ∧ parent r = none) : Forest parent cell next (L \ R) := by
  have held : ∀ n, Held parent (L \ R) n → Held parent L n :=
    fun n hn => ((held_drop hF hR).1 hn).1
  constructor
  · exact fun n hn => hF.lt_next n (held n hn)
  · exact fun n q hn => hF.parent_lt n q (held n hn)
  · exact fun n hn c hc => hF.leaf_childless n hn.1 c (held c hc)
  · exact fun n q hn => hF.within n q (held n hn)
  · exact fun a b ha hb => hF.siblings a b (held a ha) (held b hb)

end Forest

/-! ### Counting the children outside a pool -/

/-- The held children of `p` outside the pool `F`. -/
def busy (parent : ℕ → Option ℕ) (L F : Set ℕ) (p : ℕ) : Set ℕ :=
  {c | Held parent L c ∧ parent c = some p ∧ c ∉ F}

/-- `use` counts the children outside the pool; the node `owed` waits for a decrement. -/
def Counted (parent : ℕ → Option ℕ) (L F : Set ℕ) (use : ℕ → ℕ) (owed : Option ℕ) : Prop :=
  ∀ p, Held parent L p → use p = (busy parent L F p).ncard + if owed = some p then 1 else 0

variable {F : Set ℕ} {use : ℕ → ℕ} {owed : Option ℕ}

theorem Forest.busy_finite (hF : Forest parent cell next L) (p : ℕ) : (busy parent L F p).Finite :=
  (Set.finite_Iio next).subset fun c hc => hF.lt_next c hc.1

theorem Forest.busy_leaf (hF : Forest parent cell next L) {n : ℕ} (hn : n ∈ L) :
    busy parent L F n = ∅ :=
  Set.eq_empty_of_forall_notMem fun c hc => hF.leaf_childless n hn c hc.1 hc.2.1

/-- A node entering the pool is one busy child less for its parent. -/
theorem Forest.ncard_busy_insert (hF : Forest parent cell next L) {n : ℕ} (hn : Held parent L n)
    (hnF : n ∉ F) (q : ℕ) : (busy parent L F q).ncard =
      (busy parent L (insert n F) q).ncard + if parent n = some q then 1 else 0 := by
  by_cases hq : parent n = some q
  · have h : busy parent L F q = insert n (busy parent L (insert n F) q) := by
      ext c
      constructor
      · rintro ⟨hc, hpc, hcF⟩
        by_cases hcn : c = n
        · exact .inl hcn
        · exact .inr ⟨hc, hpc, fun h => h.elim hcn hcF⟩
      · rintro (rfl | ⟨hc, hpc, hcF⟩)
        · exact ⟨hn, hq, hnF⟩
        · exact ⟨hc, hpc, fun h => hcF (.inr h)⟩
    rw [h, Set.ncard_insert_of_notMem (fun h => h.2.2 (.inl rfl)) (hF.busy_finite q), if_pos hq]
  · have h : busy parent L F q = busy parent L (insert n F) q := by
      ext c
      constructor
      · rintro ⟨hc, hpc, hcF⟩
        refine ⟨hc, hpc, ?_⟩
        rintro (rfl | h)
        · exact hq hpc
        · exact hcF h
      · rintro ⟨hc, hpc, hcF⟩
        exact ⟨hc, hpc, fun h => hcF (.inr h)⟩
    rw [h, if_neg hq, Nat.add_zero]

namespace Counted

/-- A node leaves the pool and its parent's count goes up. -/
theorem take (hF : Forest parent cell next L) (hC : Counted parent L F use none) {x : ℕ}
    (hx : Held parent L x) (hxF : x ∈ F) : Counted parent L (F \ {x})
      (fun p => use p + if parent x = some p then 1 else 0) none := by
  intro p hp
  have h := hF.ncard_busy_insert (F := F \ {x}) hx (fun h => h.2 rfl) p
  rw [Set.insert_sdiff_singleton, Set.insert_eq_of_mem hxF] at h
  have hp := hC p hp
  simp only [reduceCtorEq, if_false] at hp ⊢
  omega

/-- A node enters the pool; its parent waits for the decrement. -/
theorem put (hF : Forest parent cell next L) (hC : Counted parent L F use none) {n : ℕ}
    (hn : Held parent L n) (hnF : n ∉ F) : Counted parent L (insert n F) use (parent n) := by
  intro p hp
  have h := hF.ncard_busy_insert hn hnF p
  have hp := hC p hp
  simp only [reduceCtorEq, if_false] at hp
  omega

theorem pay {p : ℕ} (hC : Counted parent L F use (some p)) :
    Counted parent L F (Function.update use p (use p - 1)) none := by
  intro q hq
  have h := hC q hq
  by_cases hqp : q = p
  · subst hqp
    rw [Function.update_self]
    simp only [if_true, reduceCtorEq, if_false] at h ⊢
    omega
  · rw [Function.update_of_ne hqp, h, if_neg (by simpa using Ne.symm hqp)]
    simp

/-- Nothing is busy below a node counted down to zero, so its children go and it enters the pool. -/
theorem merge (hF : Forest parent cell next L) (hC : Counted parent L F use none) {p : ℕ}
    (hp : Held parent L p) (hpF : p ∉ F) (hc : ∀ c, Held parent L c → parent c = some p → c ∈ L)
    (h0 : use p = 0) :
    Counted parent (insert p {c ∈ L | parent c ≠ some p}) (insert p {c ∈ F | parent c ≠ some p})
      use (parent p) := by
  intro q hq
  obtain ⟨hqL, hqp⟩ := (held_merge hF hp hc).1 hq
  by_cases hqe : q = p
  · subst hqe
    rw [(hF.merge hp hc).busy_leaf (.inl rfl), h0, if_neg hqp, Set.ncard_empty]
  · have h : busy parent (insert p {c ∈ L | parent c ≠ some p})
        (insert p {c ∈ F | parent c ≠ some p}) q = busy parent L (insert p F) q := by
      ext c
      constructor
      · rintro ⟨hcL, hpc, hcF⟩
        have hcp := (held_merge hF hp hc).1 hcL
        exact ⟨hcp.1, hpc, fun h => hcF (h.imp id fun h => ⟨h, hcp.2⟩)⟩
      · rintro ⟨hcL, hpc, hcF⟩
        have hcp : parent c ≠ some p := fun h => hqe (Option.some.inj (hpc.symm.trans h))
        exact ⟨(held_merge hF hp hc).2 ⟨hcL, hcp⟩, hpc, fun h => hcF (h.imp id And.left)⟩
    have hput := hC.put hF hp hpF q hqL
    rwa [h]

theorem split (hF : Forest parent cell next L) (hC : Counted parent L F use none)
    (hFL : F ⊆ L) (hp : ∀ n < next, parent' n = parent n) {x : ℕ} (hx : x ∈ L) (hxF : x ∉ F)
    (ha : parent' next = some x) (hb : parent' (next + 1) = some x) {use' : ℕ → ℕ}
    (hx1 : use' x = use x + 1) (hu : ∀ n < next, n ≠ x → use' n = use n) (hua : use' next = 0)
    (hub : use' (next + 1) = 0) :
    Counted parent' (insert next (insert (next + 1) (L \ {x}))) (insert (next + 1) F) use' none := by
  have held := @held_split _ parent parent' cell next L hF hp x hx ha hb
  have hlt : ∀ n, Held parent L n → n < next := hF.lt_next
  -- the held children of a node that is itself new
  have none_below : ∀ q, next ≤ q → busy parent'
      (insert next (insert (next + 1) (L \ {x}))) (insert (next + 1) F) q = ∅ := by
    intro q hq
    refine Set.eq_empty_of_forall_notMem ?_
    rintro c ⟨hc, hpc, -⟩
    have hxn := hlt x (.leaf hx)
    rcases held.1 hc with h | rfl | rfl
    · rw [hp c (hlt c h)] at hpc
      have := hF.parent_lt c q h hpc
      have := hlt c h
      omega
    · have := Option.some.inj (ha.symm.trans hpc)
      omega
    · have := Option.some.inj (hb.symm.trans hpc)
      omega
  intro q hq
  simp only [reduceCtorEq, if_false, Nat.add_zero]
  rcases held.1 hq with h | rfl | rfl
  · by_cases hqx : q = x
    · subst hqx
      have hone : busy parent' (insert next (insert (next + 1) (L \ {q}))) (insert (next + 1) F) q =
          {next} := by
        ext c
        constructor
        · rintro ⟨hc, hpc, hcF⟩
          rcases held.1 hc with h | rfl | rfl
          · rw [hp c (hlt c h)] at hpc
            exact absurd hpc (hF.leaf_childless q hx c h)
          · rfl
          · exact absurd (.inl rfl) hcF
        · rintro rfl
          refine ⟨held.2 (.inr (.inl rfl)), ha, ?_⟩
          rintro (h | h)
          · omega
          · exact absurd (hlt _ (.leaf (hFL h))) (lt_irrefl _)
      have h0 := hC q h
      rw [hF.busy_leaf hx] at h0
      simp only [Set.ncard_empty, reduceCtorEq, if_false] at h0
      rw [hone, Set.ncard_singleton, hx1, h0]
    · have hsame : busy parent' (insert next (insert (next + 1) (L \ {x}))) (insert (next + 1) F) q =
          busy parent L F q := by
        ext c
        constructor
        · rintro ⟨hc, hpc, hcF⟩
          rcases held.1 hc with h | rfl | rfl
          · exact ⟨h, by rwa [← hp c (hlt c h)], fun h => hcF (.inr h)⟩
          · exact absurd (Option.some.inj (hpc.symm.trans ha)) hqx
          · exact absurd (Option.some.inj (hpc.symm.trans hb)) hqx
        · rintro ⟨hc, hpc, hcF⟩
          refine ⟨held.2 (.inl hc), by rwa [hp c (hlt c hc)], ?_⟩
          rintro (rfl | h)
          · have := hlt _ hc
            omega
          · exact hcF h
      have h0 := hC q h
      simp only [reduceCtorEq, if_false, Nat.add_zero] at h0
      rw [hsame, hu q (hlt q h) hqx, h0]
  · rw [none_below _ le_rfl, hua, Set.ncard_empty]
  · rw [none_below _ (Nat.le_succ _), hub, Set.ncard_empty]

theorem add (hF : Forest parent cell next L) (hC : Counted parent L F use none)
    (hp : ∀ n < next, parent' n = parent n) (hr : parent' next = none) {use' : ℕ → ℕ}
    (hu : ∀ n < next, use' n = use n) (hur : use' next = 0) :
    Counted parent' (insert next L) F use' none := by
  have held := @held_add _ parent parent' cell next L hF hp hr
  have child : ∀ q c, c ∈ busy parent' (insert next L) F q → Held parent L c := by
    rintro q c ⟨hc, hpc, -⟩
    rcases held.1 hc with h | rfl
    · exact h
    · rw [hr] at hpc
      cases hpc
  intro q hq
  simp only [reduceCtorEq, if_false, Nat.add_zero]
  rcases held.1 hq with h | h
  · have hsame : busy parent' (insert next L) F q = busy parent L F q := by
      ext c
      constructor
      · intro hc
        have hcL := child q c hc
        exact ⟨hcL, by rw [← hp c (hF.lt_next c hcL)]; exact hc.2.1, hc.2.2⟩
      · rintro ⟨hc, hpc, hcF⟩
        exact ⟨held.2 (.inl hc), by rwa [hp c (hF.lt_next c hc)], hcF⟩
    have h0 := hC q h
    simp only [reduceCtorEq, if_false, Nat.add_zero] at h0
    rw [hsame, hu q (hF.lt_next q h), h0]
  · have hnone : busy parent' (insert next L) F next = ∅ := by
      refine Set.eq_empty_of_forall_notMem fun c hc => ?_
      have hcL := child next c hc
      have hpc := hc.2.1
      rw [hp c (hF.lt_next c hcL)] at hpc
      have := hF.parent_lt c next hcL hpc
      have := hF.lt_next c hcL
      omega
    rw [h, hnone, hur, Set.ncard_empty]

theorem drop (hF : Forest parent cell next L) (hC : Counted parent L F use none) {R : Set ℕ}
    (hR : ∀ r ∈ R, r ∈ L ∧ parent r = none) : Counted parent (L \ R) (F \ R) use none := by
  intro q hq
  have hsame : busy parent (L \ R) (F \ R) q = busy parent L F q := by
    ext c
    constructor
    · rintro ⟨hc, hpc, hcF⟩
      obtain ⟨hcL, hne⟩ := (held_drop hF hR).1 hc
      exact ⟨hcL, hpc, fun h => hcF ⟨h, hne⟩⟩
    · rintro ⟨hc, hpc, hcF⟩
      refine ⟨(held_drop hF hR).2 ⟨hc, fun hcR => ?_⟩, hpc, fun h => hcF h.1⟩
      rw [(hR c hcR).2] at hpc
      cases hpc
  rw [hsame]
  exact hC q ((held_drop hF hR).1 hq).1

end Counted

/-! ### Roots -/

/-- The held nodes without a parent. -/
def roots (parent : ℕ → Option ℕ) (L : Set ℕ) : Set ℕ := {r | Held parent L r ∧ parent r = none}

theorem Forest.roots_finite (hF : Forest parent cell next L) : (roots parent L).Finite :=
  (Set.finite_Iio next).subset fun r hr => hF.lt_next r hr.1

theorem roots_split (hF : Forest parent cell next L) (hp : ∀ n < next, parent' n = parent n) {x : ℕ}
    (hx : x ∈ L) (ha : parent' next = some x) (hb : parent' (next + 1) = some x) :
    roots parent' (insert next (insert (next + 1) (L \ {x}))) = roots parent L := by
  ext r
  constructor
  · rintro ⟨hr, h0⟩
    rcases (held_split hF hp hx ha hb).1 hr with h | rfl | rfl
    · exact ⟨h, (hp r (hF.lt_next r h)).symm.trans h0⟩
    · cases ha.symm.trans h0
    · cases hb.symm.trans h0
  · rintro ⟨hr, h0⟩
    exact ⟨(held_split hF hp hx ha hb).2 (.inl hr), (hp r (hF.lt_next r hr)).trans h0⟩

theorem roots_merge (hF : Forest parent cell next L) {p : ℕ} (hp : Held parent L p)
    (hc : ∀ c, Held parent L c → parent c = some p → c ∈ L) :
    roots parent (insert p {c ∈ L | parent c ≠ some p}) = roots parent L := by
  ext r
  constructor
  · rintro ⟨hr, h0⟩
    exact ⟨((held_merge hF hp hc).1 hr).1, h0⟩
  · rintro ⟨hr, h0⟩
    refine ⟨(held_merge hF hp hc).2 ⟨hr, ?_⟩, h0⟩
    rw [h0]
    exact nofun

theorem roots_add (hF : Forest parent cell next L) (hp : ∀ n < next, parent' n = parent n)
    (hr : parent' next = none) : roots parent' (insert next L) = insert next (roots parent L) := by
  ext r
  constructor
  · rintro ⟨hh, h0⟩
    rcases (held_add hF hp hr).1 hh with h | rfl
    · exact .inr ⟨h, (hp r (hF.lt_next r h)).symm.trans h0⟩
    · exact .inl rfl
  · rintro (rfl | ⟨hh, h0⟩)
    · exact ⟨(held_add hF hp hr).2 (.inr rfl), hr⟩
    · exact ⟨(held_add hF hp hr).2 (.inl hh), (hp r (hF.lt_next r hh)).trans h0⟩

theorem roots_drop (hF : Forest parent cell next L) {R : Set ℕ}
    (hR : ∀ r ∈ R, r ∈ L ∧ parent r = none) : roots parent (L \ R) = roots parent L \ R := by
  ext r
  constructor
  · rintro ⟨hh, h0⟩
    obtain ⟨h, hrR⟩ := (held_drop hF hR).1 hh
    exact ⟨⟨h, h0⟩, hrR⟩
  · rintro ⟨⟨h, h0⟩, hrR⟩
    exact ⟨(held_drop hF hR).2 ⟨h, hrR⟩, h0⟩

/-! ### Nodes kept by what is below them -/

/-- A held node whose count is zero is a leaf; the node `owed` may still be counted down. -/
def Kept (parent : ℕ → Option ℕ) (L : Set ℕ) (use : ℕ → ℕ) (owed : Option ℕ) : Prop :=
  ∀ n, Held parent L n → n ∉ L → owed ≠ some n → 0 < use n

namespace Kept

/-- **Below a node outside the pool there is a leaf outside the pool.** -/
theorem exists_leaf (hF : Forest parent cell next L) (hC : Counted parent L F use none)
    (hK : Kept parent L use none) {n : ℕ} (hn : Held parent L n) (hnF : n ∉ F) :
    ∃ l ∈ L, l ∉ F ∧ Anc parent n l := by
  induction hk : next - n using Nat.strong_induction_on generalizing n with
  | _ k ih =>
    subst hk
    by_cases hnL : n ∈ L
    · exact ⟨n, hnL, hnF, .refl⟩
    · have hpos := hK n hn hnL nofun
      rw [hC n hn, if_neg nofun, Nat.add_zero] at hpos
      obtain ⟨c, hc, hpc, hcF⟩ := (Set.ncard_pos (hF.busy_finite n)).1 hpos
      have hnc := hF.parent_lt c n hc hpc
      have hcn := hF.lt_next c hc
      obtain ⟨l, hl, hlF, hanc⟩ := ih (next - c) (by omega) hc hcF rfl
      exact ⟨l, hl, hlF, hanc.head hpc⟩

theorem mono {use' : ℕ → ℕ} (hK : Kept parent L use owed) (hu : ∀ n, use n ≤ use' n) :
    Kept parent L use' owed := fun n hn hnL ho => (hK n hn hnL ho).trans_le (hu n)

/-- A leaf waits for a decrement only in name. -/
theorem owe (hK : Kept parent L use none) (owed : Option ℕ) : Kept parent L use owed :=
  fun n hn hnL _ => hK n hn hnL nofun

/-- The node counted down is not at zero yet. -/
theorem pay {p : ℕ} (hK : Kept parent L use (some p)) (h0 : use p - 1 ≠ 0) :
    Kept parent L (Function.update use p (use p - 1)) none := by
  intro n hn hnL _
  by_cases hnp : n = p
  · subst hnp
    rw [Function.update_self]
    exact Nat.pos_of_ne_zero h0
  · rw [Function.update_of_ne hnp]
    exact hK n hn hnL fun h => hnp (Option.some.inj h).symm

/-- The node counted down to zero becomes a leaf. -/
theorem merge (hF : Forest parent cell next L) {p : ℕ} (hK : Kept parent L use (some p))
    (hp : Held parent L p) (hc : ∀ c, Held parent L c → parent c = some p → c ∈ L) (k : ℕ) :
    Kept parent (insert p {c ∈ L | parent c ≠ some p}) (Function.update use p k) none := by
  intro n hn hnL _
  obtain ⟨hh, hnp⟩ := (held_merge hF hp hc).1 hn
  have hne : n ≠ p := fun h => hnL (.inl h)
  rw [Function.update_of_ne hne]
  exact hK n hh (fun h => hnL (.inr ⟨h, hnp⟩)) fun h => hne (Option.some.inj h).symm

theorem split (hF : Forest parent cell next L) (hK : Kept parent L use none)
    (hp : ∀ n < next, parent' n = parent n) {x : ℕ} (hx : x ∈ L) (ha : parent' next = some x)
    (hb : parent' (next + 1) = some x) {use' : ℕ → ℕ} (hx1 : 0 < use' x)
    (hu : ∀ n < next, n ≠ x → use' n = use n) :
    Kept parent' (insert next (insert (next + 1) (L \ {x}))) use' none := by
  intro n hn hnL _
  rcases (held_split hF hp hx ha hb).1 hn with h | rfl | rfl
  · by_cases hnx : n = x
    · rwa [hnx]
    · rw [hu n (hF.lt_next n h) hnx]
      exact hK n h (fun hm => hnL (.inr (.inr ⟨hm, hnx⟩))) nofun
  · exact absurd (.inl rfl) hnL
  · exact absurd (.inr (.inl rfl)) hnL

theorem add (hF : Forest parent cell next L) (hK : Kept parent L use none)
    (hp : ∀ n < next, parent' n = parent n) (hr : parent' next = none) {use' : ℕ → ℕ}
    (hu : ∀ n < next, use' n = use n) : Kept parent' (insert next L) use' none := by
  intro n hn hnL _
  rcases (held_add hF hp hr).1 hn with h | rfl
  · rw [hu n (hF.lt_next n h)]
    exact hK n h (fun hm => hnL (.inr hm)) nofun
  · exact absurd (.inl rfl) hnL

theorem drop (hF : Forest parent cell next L) (hK : Kept parent L use none) {R : Set ℕ}
    (hR : ∀ r ∈ R, r ∈ L ∧ parent r = none) : Kept parent (L \ R) use none := by
  intro n hn hnL _
  obtain ⟨h, hnR⟩ := (held_drop hF hR).1 hn
  exact hK n h (fun hm => hnL ⟨hm, hnR⟩) nofun

end Kept

end Lib
