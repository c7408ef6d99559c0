import Mathlib.Algebra.BigOperators.Group.Finset.Basic
import Mathlib.Data.List.AList

/-!
# Accumulating tables

Finite tables of amounts, where a missing key stands for 0.

- `value t a`: the amount under a key; `add t a x` adds to it (`value_add`);
- `total t`: the sum of a table, that is the amount of one key and those of the others (`total_eq`), and so the sum of
  the amounts of any keys that include those that are not 0 (`total_eq_sum`);
- `value_foldl`: what a loop over the entries of a table leaves in any view that each turn adds to; what no turn
  changes stays (`keep_foldl`).
-/

namespace Accum

variable {α M : Type*}

/-- Finitely many keys with an amount each. -/
abbrev Table (α M : Type*) := AList fun _ : α => M

variable [DecidableEq α]

variable [AddCommMonoid M]

def value (t : Table α M) (a : α) : M := (t.lookup a).getD 0

def add (t : Table α M) (a : α) (x : M) : Table α M := t.insert a (value t a + x)

/-- The sum of all amounts. -/
def total (t : Table α M) : M := (t.entries.map fun e => e.2).sum

@[simp] theorem value_empty (a : α) : value (∅ : Table α M) a = 0 := rfl

theorem value_add (t : Table α M) (a b : α) (x : M) :
    value (add t a x) b = value t b + if b = a then x else 0 := by
  unfold add
  by_cases h : b = a
  · subst h
    rw [if_pos rfl, value, AList.lookup_insert, Option.getD_some]
  · rw [if_neg h, value, AList.lookup_insert_ne h, add_zero, value]

/-- An entry of a table and the rest of it. -/
theorem sum_kerase (a : α) : ∀ l : List (Sigma fun _ : α => M),
    (l.map fun e => e.2).sum = (l.dlookup a).getD 0 + ((l.kerase a).map fun e => e.2).sum
  | [] => by simp
  | ⟨b, x⟩ :: l => by
    by_cases h : a = b
    · subst h
      simp
    · have hk : List.kerase a (⟨b, x⟩ :: l) = ⟨b, x⟩ :: l.kerase a := List.kerase_cons_ne h
      have hd : List.dlookup a (⟨b, x⟩ :: l) = l.dlookup a := List.dlookup_cons_ne l ⟨b, x⟩ h
      rw [hk, hd, List.map_cons, List.sum_cons, List.map_cons, List.sum_cons, sum_kerase a l, add_left_comm]

theorem total_eq (t : Table α M) (a : α) : total t = value t a + total (t.erase a) := sum_kerase a t.entries

theorem value_erase (t : Table α M) (a b : α) : value (t.erase a) b = if b = a then 0 else value t b := by
  unfold value
  by_cases h : b = a
  · subst h
    rw [if_pos rfl, AList.lookup_erase, Option.getD_none]
  · rw [if_neg h, AList.lookup_erase_ne h]

theorem total_eq_zero {t : Table α M} (h : ∀ a, value t a = 0) : total t = 0 := by
  refine List.sum_eq_zero ?_
  intro x hx
  obtain ⟨e, he, rfl⟩ := List.mem_map.1 hx
  have hv : t.lookup e.1 = some e.2 := AList.mem_lookup_iff.2 he
  have h0 := h e.1
  rwa [value, hv, Option.getD_some] at h0

/-- The sum of a table is that of the amounts of any keys that include those whose amount is not 0. -/
theorem total_eq_sum (t : Table α M) (s : Finset α) (h : ∀ a, a ∉ s → value t a = 0) :
    total t = ∑ a ∈ s, value t a := by
  induction s using Finset.induction_on generalizing t with
  | empty => rw [Finset.sum_empty, total_eq_zero fun a => h a (Finset.notMem_empty a)]
  | insert b s hb ih =>
    have hrest : ∀ a, a ∉ s → value (t.erase b) a = 0 := by
      intro a ha
      rw [value_erase]
      split
      · rfl
      · next hab => exact h a (by simp [hab, ha])
    have hsame : ∀ a ∈ s, value (t.erase b) a = value t a := by
      intro a ha
      rw [value_erase, if_neg (by rintro rfl; exact hb ha)]
    rw [total_eq t b, ih _ hrest, Finset.sum_insert hb, Finset.sum_congr rfl hsame]

/-- A loop over the entries of a table, each of whose turns adds to what is seen under the key of its entry. -/
theorem value_foldl {σ : Type*} {N : Type*} [AddCommMonoid N] {view : σ → α → N}
    {body : σ → (Sigma fun _ : α => M) → σ} {f : M → N}
    (hbody : ∀ s e a, view (body s e) a = view s a + if a = e.1 then f e.2 else 0) (hf : f 0 = 0) (t : Table α M)
    (s : σ) (a : α) : view (t.entries.foldl body s) a = view s a + f (value t a) := by
  have hl : ∀ (l : List (Sigma fun _ : α => M)), l.NodupKeys → ∀ s,
      view (l.foldl body s) a = view s a + f ((l.dlookup a).getD 0) := by
    intro l
    induction l with
    | nil => intro _ s; simp [hf]
    | cons e l ih =>
      intro hnd s
      rw [List.nodupKeys_cons] at hnd
      rw [List.foldl_cons, ih hnd.2, hbody]
      by_cases h : a = e.1
      · -- the rest of the table has no entry under this key
        have hrest : l.dlookup a = none := List.dlookup_eq_none.2 (h ▸ hnd.1)
        have hfirst : (e :: l).dlookup a = some e.2 := by rw [h]; exact List.dlookup_cons_eq l e.1 e.2
        rw [if_pos h, hrest, hfirst, Option.getD_none, Option.getD_some, hf, add_zero]
      · rw [if_neg h, add_zero, List.dlookup_cons_ne l e h]
  exact hl t.entries t.nodupKeys s

/-- What no turn of a loop changes. -/
theorem keep_foldl {σ τ ε : Type*} (g : σ → τ) (body : σ → ε → σ) (hbody : ∀ s e, g (body s e) = g s) (l : List ε)
    (s : σ) : g (l.foldl body s) = g s := by
  induction l generalizing s with
  | nil => rfl
  | cons e l ih => rw [List.foldl_cons, ih, hbody]

end Accum
