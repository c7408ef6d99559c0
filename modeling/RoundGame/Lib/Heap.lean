import Mathlib.Data.List.Basic

/-!
# Linked lists in a memory

- `Chain next p ns`: from the pointer `p` on, the links `next` lead through the nodes `ns` and to no further one. Only
  the links of its nodes matter to a chain (`Chain.congr`), a node can be linked behind its last one (`Chain.snoc`),
  and nodes in a row make one (`chain_range'`).
- `Frame brk mem brk' mem' own own'`: a memory in use up to `brk` was changed at the places `own` only and in use up
  to `brk'` afterwards; the places `own'` are from `own` or new. Changes one after the other compose (`Frame.trans`).
-/

namespace Heap

/-! ## Chains -/

section

variable {ι : Type*} {next next' : ι → Option ι} {p : Option ι} {n m : ι} {ns : List ι}

def Chain (next : ι → Option ι) : Option ι → List ι → Prop
  | p, [] => p = none
  | p, n :: ns => p = some n ∧ Chain next (next n) ns

@[simp] theorem chain_nil : Chain next p [] ↔ p = none := Iff.rfl

@[simp] theorem chain_cons : Chain next p (n :: ns) ↔ p = some n ∧ Chain next (next n) ns := Iff.rfl

theorem Chain.head (h : Chain next p ns) : p = ns.head? := by
  cases ns with
  | nil => exact h
  | cons n ns => exact h.1

theorem Chain.congr (hn : ∀ n ∈ ns, next' n = next n) (h : Chain next p ns) : Chain next' p ns := by
  induction ns generalizing p with
  | nil => exact h
  | cons n ns ih =>
    refine ⟨h.1, ?_⟩
    rw [hn n List.mem_cons_self]
    exact ih (fun k hk => hn k (List.mem_cons_of_mem _ hk)) h.2

/-- The last node of a chain is linked to a new one. -/
theorem Chain.snoc [DecidableEq ι] (h : Chain next p ns) (hnodup : ns.Nodup) (hnew : next' m = none)
    (hn : ∀ n ∈ ns, next' n = if ns.getLast? = some n then some m else next n) :
    Chain next' (ns ++ [m]).head? (ns ++ [m]) := by
  induction ns generalizing p with
  | nil => exact ⟨rfl, hnew⟩
  | cons n ns ih =>
    refine ⟨rfl, ?_⟩
    rw [hn n List.mem_cons_self]
    cases ns with
    | nil =>
      rw [if_pos List.getLast?_singleton]
      exact ⟨rfl, hnew⟩
    | cons k ks =>
      have hout := (List.nodup_cons.1 hnodup).1
      have hlast : (n :: k :: ks).getLast? ≠ some n := by
        rw [List.getLast?_cons_cons]
        exact fun heq => hout (List.mem_of_getLast? heq)
      have hnext : next n = some k := h.2.1
      rw [if_neg hlast, hnext]
      apply ih h.2 (List.nodup_cons.1 hnodup).2
      intro i hi
      have hi' := hn i (List.mem_cons_of_mem _ hi)
      rwa [List.getLast?_cons_cons] at hi'

/-- Nodes in a row, each linked to the one after it. -/
theorem chain_range' {next : Nat → Option Nat} {a k : Nat}
    (h : ∀ i ≤ k, next (a + i) = if i < k then some (a + i + 1) else none) :
    Chain next (some a) (List.range' a (k + 1)) := by
  induction k generalizing a with
  | zero =>
    refine ⟨rfl, ?_⟩
    simpa using h 0 (Nat.le_refl _)
  | succ k ih =>
    refine ⟨rfl, ?_⟩
    have hfirst : next a = some (a + 1) := by simpa using h 0 (by omega)
    rw [hfirst]
    apply ih
    intro i hi
    have hnext := h (i + 1) (by omega)
    simpa [Nat.add_assoc, Nat.add_comm 1] using hnext

end

/-! ## Frames -/

section

variable {ν : Type*} {brk brk' brk'' : Nat} {mem mem' mem'' : Nat → ν} {own own' own'' : List Nat}

structure Frame (brk : Nat) (mem : Nat → ν) (brk' : Nat) (mem' : Nat → ν) (own own' : List Nat) : Prop where
  grows : brk ≤ brk'
  same : ∀ a < brk, a ∉ own → mem' a = mem a
  from_own : ∀ a ∈ own', a ∈ own ∨ brk ≤ a

theorem Frame.refl : Frame brk mem brk mem own own :=
  ⟨Nat.le_refl _, fun _ _ _ => rfl, fun _ ha => Or.inl ha⟩

theorem Frame.trans (h : Frame brk mem brk' mem' own own') (h' : Frame brk' mem' brk'' mem'' own' own'') :
    Frame brk mem brk'' mem'' own own'' := by
  refine ⟨Nat.le_trans h.grows h'.grows, ?_, ?_⟩
  · intro a ha hout
    have hout' : a ∉ own' := by
      intro hmem
      rcases h.from_own a hmem with hown | hge
      · exact hout hown
      · omega
    rw [h'.same a (by have := h.grows; omega) hout', h.same a ha hout]
  · intro a ha
    rcases h'.from_own a ha with hown | hge
    · exact h.from_own a hown
    · exact Or.inr (Nat.le_trans h.grows hge)

/-- What lies apart from the places changed lies apart from those held afterwards. -/
theorem Frame.apart (h : Frame brk mem brk' mem' own own') {l : List Nat} (hlt : ∀ a ∈ l, a < brk)
    (hl : ∀ a ∈ l, a ∉ own) : ∀ a ∈ l, a ∉ own' := by
  intro a ha hmem
  rcases h.from_own a hmem with hown | hge
  · exact hl a ha hown
  · have := hlt a ha
    omega

end

end Heap
