import Mathlib.Data.List.Nodup
import Mathlib.Logic.Function.Basic

/-!
# Partial maps

A finite or infinite table is a function `f : α → Option β`; writing it is `Function.update`, with `none` for a
deletion.

- what a written table holds (`update_some_eq_some`, `update_none_eq_some`, `isSome_update_some`, ...);
- `Inverse f g`: two tables are inverse to each other. Writing a fresh pair into both keeps this
  (`Inverse.insert`), deleting a pair from both does (`Inverse.erase`), and a pair whose right side is taken breaks
  it (`not_inverse_insert`);
- a list of pairs with distinct keys is the table of its pairs (`lookup_eq_some_iff_mem`).
-/

namespace PMap

open Function

variable {α β : Type*}

section Write

variable [DecidableEq α]

/-- What a table holds after a write. -/
theorem update_some_eq_some {f : α → Option β} {a x : α} {v b : β} :
    update f a (some v) x = some b ↔ (x = a ∧ v = b) ∨ (x ≠ a ∧ f x = some b) := by
  by_cases h : x = a
  · subst h; simp
  · simp [h]

/-- What a table holds after a deletion. -/
theorem update_none_eq_some {f : α → Option β} {a x : α} {b : β} :
    update f a none x = some b ↔ x ≠ a ∧ f x = some b := by
  by_cases h : x = a
  · subst h; simp
  · simp [h]

theorem isSome_update_some {f : α → Option β} {a x : α} {v : β} :
    (update f a (some v) x).isSome ↔ x = a ∨ (f x).isSome := by
  by_cases h : x = a
  · subst h; simp
  · simp [h]

theorem isSome_update_none {f : α → Option β} {a x : α} :
    (update f a none x).isSome ↔ x ≠ a ∧ (f x).isSome := by
  by_cases h : x = a
  · subst h; simp
  · simp [h]

end Write

/-! ## Tables inverse to each other -/

/-- Two tables are inverse to each other. -/
def Inverse (f : α → Option β) (g : β → Option α) : Prop := ∀ a b, f a = some b ↔ g b = some a

theorem Inverse.empty : Inverse (fun _ : α => (none : Option β)) (fun _ => none) := fun _ _ => by simp

variable [DecidableEq α] [DecidableEq β] {f : α → Option β} {g : β → Option α}

namespace Inverse

/-- A fresh pair. -/
theorem insert (h : Inverse f g) {a : α} {b : β} (ha : f a = none) (hb : g b = none) :
    Inverse (update f a (some b)) (update g b (some a)) := by
  intro x y
  rw [update_some_eq_some, update_some_eq_some, h x y]
  constructor
  · rintro (⟨rfl, rfl⟩ | ⟨hx, hy⟩)
    · exact Or.inl ⟨rfl, rfl⟩
    · refine Or.inr ⟨?_, hy⟩
      rintro rfl
      rw [hb] at hy
      cases hy
  · rintro (⟨rfl, rfl⟩ | ⟨hy, hx⟩)
    · exact Or.inl ⟨rfl, rfl⟩
    · refine Or.inr ⟨?_, hx⟩
      rintro rfl
      rw [(h _ _).2 hx] at ha
      cases ha

/-- A pair deleted on both sides. -/
theorem erase (h : Inverse f g) {a : α} {b : β} (hab : f a = some b) :
    Inverse (update f a none) (update g b none) := by
  have hba : g b = some a := (h a b).1 hab
  intro x y
  rw [update_none_eq_some, update_none_eq_some, h x y]
  constructor
  · rintro ⟨hx, hy⟩
    refine ⟨?_, hy⟩
    rintro rfl
    rw [hba] at hy
    exact hx (Option.some.inj hy).symm
  · rintro ⟨hy, hx⟩
    refine ⟨?_, hx⟩
    rintro rfl
    have hxy : f x = some y := (h x y).2 hx
    rw [hab] at hxy
    exact hy (Option.some.inj hxy).symm

end Inverse

/-- Writing a pair whose right side belongs to another left side leaves the tables not inverse, whatever else was
deleted, as long as that other entry is still there. -/
theorem not_inverse_insert {a a' : α} {b : β} (hne : a' ≠ a)
    (h : f a' = some b) : ¬ Inverse (update f a (some b)) (update g b (some a)) := by
  intro hi
  have h1 : update f a (some b) a' = some b := by rw [update_of_ne hne]; exact h
  have h2 := (hi a' b).1 h1
  rw [update_self] at h2
  exact hne (Option.some.inj h2).symm

/-! ## Lists of pairs -/

omit [DecidableEq β] in
/-- With distinct keys, what is found under a key is the pair with that key. -/
theorem lookup_eq_some_iff_mem {l : List (α × β)} (hl : (l.map Prod.fst).Nodup) {a : α} {b : β} :
    l.lookup a = some b ↔ (a, b) ∈ l := by
  induction l with
  | nil => simp
  | cons p l ih =>
    obtain ⟨a', b'⟩ := p
    rw [List.map_cons, List.nodup_cons] at hl
    by_cases h : a = a'
    · subst h
      have hnot : (a, b) ∉ l := fun hm => hl.1 (List.mem_map.2 ⟨(a, b), hm, rfl⟩)
      simp only [List.lookup_cons, beq_self_eq_true, Option.some.injEq, List.mem_cons, Prod.mk.injEq, true_and, hnot,
        or_false, eq_comm]
    · have hk : (a == a') = false := by simp [h]
      simp only [List.lookup_cons, hk, ih hl.2, List.mem_cons, Prod.mk.injEq, h, false_and, false_or]

end PMap
