import Mathlib.Tactic

/-!
# Loops with footprints

A pass over a memory changes some places and depends on some places there.  A loop whose passes
change different places, none of which a later pass depends on, does each pass on the memory it
began with.

* `Touches`: what a pass changes and depends on;
* `touches_update`: an assignment;
* `foldl_touches`: **the rule of such loops**.
-/

namespace Lib

variable {α κ V : Type*}

/-- The pass changes only places of `F`, and what it leaves there depends on places of `D`. -/
structure Touches (step : (κ → V) → κ → V) (F D : κ → Prop) : Prop where
  frame : ∀ y k, ¬ F k → step y k = y k
  congr : ∀ y y', (∀ k, D k → y k = y' k) → ∀ k, F k → step y k = step y' k

theorem touches_update [DecidableEq κ] {t : κ} {g : (κ → V) → V} {D : κ → Prop}
    (hg : ∀ y y', (∀ k, D k → y k = y' k) → g y = g y') :
    Touches (fun y => Function.update y t (g y)) (· = t) D where
  frame y k hk := Function.update_of_ne hk ..
  congr y y' h k hk := by
    subst hk
    rw [Function.update_self, Function.update_self, hg y y' h]

/-- **The rule.** -/
theorem foldl_touches {l : List α} {step : α → (κ → V) → κ → V} {F D : α → κ → Prop}
    (h : ∀ a ∈ l, Touches (step a) (F a) (D a))
    (hl : l.Pairwise fun a b => ∀ k, F a k → ¬ F b k ∧ ¬ D b k) (y : κ → V) :
    (∀ a ∈ l, ∀ k, F a k → l.foldl (fun y a => step a y) y k = step a y k) ∧
      ∀ k, (∀ a ∈ l, ¬ F a k) → l.foldl (fun y a => step a y) y k = y k := by
  induction l generalizing y with
  | nil => exact ⟨fun a ha => absurd ha List.not_mem_nil, fun _ _ => rfl⟩
  | cons a l ih =>
    obtain ⟨hhead, htail⟩ := List.pairwise_cons.1 hl
    obtain ⟨hin, hout⟩ := ih (fun b hb => h b (List.mem_cons_of_mem a hb)) htail (step a y)
    have ha := h a List.mem_cons_self
    simp only [List.foldl_cons]
    refine ⟨fun b hb k hk => ?_, fun k hk => ?_⟩
    · rcases List.mem_cons.1 hb with rfl | hb
      · exact hout k fun c hc => (hhead c hc k hk).1
      · -- what `b` depends on is as before `a`
        rw [hin b hb k hk]
        refine (h b (List.mem_cons_of_mem a hb)).congr _ _ (fun k' hk' => ?_) k hk
        exact ha.frame y k' fun hF => (hhead b hb k' hF).2 hk'
    · rw [hout k fun b hb => hk b (List.mem_cons_of_mem a hb)]
      exact ha.frame y k (hk a List.mem_cons_self)

end Lib
