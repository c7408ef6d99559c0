import Mathlib.Data.Finite.Defs
import Mathlib.Data.Fintype.EquivFin
import Mathlib.Logic.Relation

/-!
# Orbits of a relation with one successor

A relation in which nothing has two successors. What goes round comes back from wherever it leads (`back_of_around`).

A finite set in which everything comes from something in the set goes on within itself (`exists_next`), and nothing in
it comes from two in it (`eq_of_next`). So a place that goes round leads to whatever in the set leads there
(`around_of_mem`).
-/

namespace Orbit

open Relation

variable {α : Type*} {r : α → α → Prop} {C : Set α} {a b t x y : α}

/-- From wherever something that goes round leads, it is reached again. -/
theorem back_of_around (hunique : Relator.RightUnique r) (haround : TransGen r t t) (h : ReflTransGen r t x) :
    ReflTransGen r x t := by
  induction h with
  | refl => exact .refl
  | tail _ hstep ih =>
    rcases ReflTransGen.cases_head ih with rfl | ⟨y, hy, hback⟩
    · obtain ⟨y, hy, hback⟩ := TransGen.head'_iff.1 haround
      rwa [hunique hstep hy]
    · rwa [hunique hstep hy]

section Closed

variable (hunique : Relator.RightUnique r) (hfinite : C.Finite) (hprev : ∀ t ∈ C, ∃ s ∈ C, r s t)

include hunique hfinite hprev

/-- Everything in the set is what something else in it is chosen to come from. -/
theorem exists_choice : ∃ prev : C → C, (∀ t, r (prev t) t) ∧ prev.Surjective := by
  have hprev' : ∀ t : C, ∃ s : C, r s t := by
    intro t
    obtain ⟨s, hs, hst⟩ := hprev t t.2
    exact ⟨⟨s, hs⟩, hst⟩
  choose prev hstep using hprev'
  have : Finite C := hfinite
  refine ⟨prev, hstep, Finite.surjective_of_injective fun t u heq => ?_⟩
  have hu := hstep u
  rw [← heq] at hu
  exact Subtype.ext (hunique (hstep t) hu)

theorem exists_next (ha : a ∈ C) : ∃ b ∈ C, r a b := by
  obtain ⟨prev, hstep, hsurjective⟩ := exists_choice hunique hfinite hprev
  obtain ⟨t, ht⟩ := hsurjective ⟨a, ha⟩
  have hat := hstep t
  rw [ht] at hat
  exact ⟨t, t.2, hat⟩

theorem mem_of_reaches (ha : a ∈ C) (h : ReflTransGen r a b) : b ∈ C := by
  induction h with
  | refl => exact ha
  | tail _ hstep ih =>
    obtain ⟨c, hc, hnext⟩ := exists_next hunique hfinite hprev ih
    rwa [hunique hstep hnext]

theorem eq_of_next (ha : a ∈ C) (hb : b ∈ C) (hat : r a t) (hbt : r b t) : a = b := by
  obtain ⟨prev, hstep, hsurjective⟩ := exists_choice hunique hfinite hprev
  have hprev : ∀ x (hx : x ∈ C), r x t → ∃ ht, x = prev ⟨t, ht⟩ := by
    intro x hx hxt
    obtain ⟨u, hu⟩ := hsurjective ⟨x, hx⟩
    have hxu := hstep u
    rw [hu] at hxu
    have heq : t = u := hunique hxt hxu
    subst heq
    exact ⟨u.2, congrArg Subtype.val hu.symm⟩
  obtain ⟨_, ha⟩ := hprev a ha hat
  obtain ⟨_, hb⟩ := hprev b hb hbt
  rw [ha, hb]

theorem around_of_mem (hx : x ∈ C) (hxt : ReflTransGen r x t) (haround : TransGen r t t) : ReflTransGen r t x := by
  induction hxt using ReflTransGen.head_induction_on with
  | refl => exact .refl
  | @head x y hxy hyt ih =>
    have hy : y ∈ C := mem_of_reaches hunique hfinite hprev hx (.single hxy)
    have hty : TransGen r t y := haround.trans_left (ih hy)
    have ht : t ∈ C := mem_of_reaches hunique hfinite hprev hy hyt
    obtain ⟨z, htz, hzy⟩ := TransGen.tail'_iff.1 hty
    have hz : z ∈ C := mem_of_reaches hunique hfinite hprev ht htz
    rwa [eq_of_next hunique hfinite hprev hx hz hxy hzy]

end Closed

end Orbit
