import Mathlib.Data.List.Nodup
import Mathlib.Logic.Relation

/-!
# Depth-first visits

`visit succ n seen a`: the nodes seen so far, then those that a recursive visit of `a` adds. A node is added before the
visit goes on to its successors, and is not visited twice. `succ a` is `none` when there is no node `a`; then nothing
is visited. The recursion is at most `n` deep.

- A visit adds nodes whose successors it has all seen in the end (`Grown`).
- When there are less than `n` nodes, the visit of `a` from the start sees what can be reached from `a`, each node once
  (`nodup_visit`, `mem_visit`).
-/

namespace Dfs

variable {α : Type*} [DecidableEq α]

def visit (succ : α → Option (List α)) : Nat → List α → α → List α
  | 0, seen, _ => seen
  | n + 1, seen, a =>
    match succ a with
    | none => seen
    | some l => if a ∈ seen then seen else l.foldl (visit succ n) (seen ++ [a])

/-- The nodes of a list that have not been seen. -/
def room (nodes seen : List α) : Nat := (nodes.filter fun a => a ∉ seen).length

variable {succ : α → Option (List α)} {nodes seen seen' out l : List α} {a b : α} {n : Nat}

theorem room_le (h : seen ⊆ seen') : room nodes seen' ≤ room nodes seen := by
  refine (List.monotone_filter_right nodes fun a ha => ?_).length_le
  rw [decide_eq_true_eq] at ha ⊢
  exact fun hs => ha (h hs)

theorem room_lt (ha : a ∈ nodes) (hs : a ∉ seen) : room nodes (seen ++ [a]) < room nodes seen := by
  have hfilter : (nodes.filter fun b => b ∉ seen ++ [a]) = (nodes.filter fun b => b ∉ seen).filter fun b => b ≠ a := by
    rw [List.filter_filter]
    refine List.filter_congr fun b _ => ?_
    simp [and_comm]
  rw [room, hfilter, room, List.length_filter_lt_length_iff_exists]
  exact ⟨a, List.mem_filter.2 ⟨ha, decide_eq_true hs⟩, by simp⟩

theorem room_nil_le (nodes : List α) : room nodes [] ≤ nodes.length := List.length_filter_le _ _

/-! ## What a visit adds -/

/-- There is an edge to each successor of a node. -/
def Edge (succ : α → Option (List α)) (a b : α) : Prop := ∃ l, succ a = some l ∧ b ∈ l

/-- From `seen` to `out` only nodes were added, none twice, and none with a successor that is left out. -/
structure Grown (succ : α → Option (List α)) (seen out : List α) : Prop where
  subset : seen ⊆ out
  nodup : seen.Nodup → out.Nodup
  closed : ∀ x, x ∈ out → x ∉ seen → ∃ l, succ x = some l ∧ ∀ y ∈ l, (succ y).isSome → y ∈ out

omit [DecidableEq α] in
theorem Grown.refl (succ : α → Option (List α)) (seen : List α) : Grown succ seen seen :=
  ⟨List.Subset.refl seen, id, fun _ hx hn => absurd hx hn⟩

theorem Grown.trans (h : Grown succ seen seen') (h' : Grown succ seen' out) : Grown succ seen out := by
  refine ⟨List.Subset.trans h.subset h'.subset, fun hs => h'.nodup (h.nodup hs), fun x hx hn => ?_⟩
  by_cases hmid : x ∈ seen'
  · obtain ⟨l, hl, hall⟩ := h.closed x hmid hn
    exact ⟨l, hl, fun y hy hsome => h'.subset (hall y hy hsome)⟩
  · exact h'.closed x hx hmid

/-- What a visit of `a` sees beyond `seen`. -/
structure Visited (succ : α → Option (List α)) (seen : List α) (l : List α) (out : List α) : Prop where
  grown : Grown succ seen out
  mem : ∀ a ∈ l, (succ a).isSome → a ∈ out
  reach : ∀ x ∈ out, x ∈ seen ∨ ∃ a ∈ l, Relation.ReflTransGen (Edge succ) a x

omit [DecidableEq α] in
theorem Visited.nil (succ : α → Option (List α)) (seen : List α) : Visited succ seen [] seen :=
  ⟨Grown.refl succ seen, fun _ ha => absurd ha List.not_mem_nil, fun _ hx => Or.inl hx⟩

theorem Visited.cons (h : Visited succ seen [a] seen') (h' : Visited succ seen' l out) :
    Visited succ seen (a :: l) out := by
  refine ⟨h.grown.trans h'.grown, fun b hb hsome => ?_, fun x hx => ?_⟩
  · rcases List.mem_cons.1 hb with rfl | hb
    · exact h'.grown.subset (h.mem b (List.mem_singleton_self b) hsome)
    · exact h'.mem b hb hsome
  · rcases h'.reach x hx with hx | ⟨b, hb, hbx⟩
    · refine (h.reach x hx).imp id ?_
      rintro ⟨b, hb, hbx⟩
      rw [List.mem_singleton.1 hb] at hbx
      exact ⟨a, List.mem_cons_self, hbx⟩
    · exact Or.inr ⟨b, List.mem_cons_of_mem a hb, hbx⟩

/-- A node together with what its successors lead to. -/
theorem Visited.node (hsucc : succ a = some l) (hs : a ∉ seen) (h : Visited succ (seen ++ [a]) l out) :
    Visited succ seen [a] out := by
  have ha : a ∈ out := h.grown.subset (by simp)
  refine ⟨⟨fun x hx => h.grown.subset (List.mem_append_left _ hx), fun hnodup => h.grown.nodup ?_, ?_⟩, ?_, ?_⟩
  · rw [← List.concat_eq_append]
    exact (List.nodup_concat seen a).2 ⟨hs, hnodup⟩
  · intro x hx hn
    by_cases hxa : x = a
    · subst hxa
      exact ⟨l, hsucc, h.mem⟩
    · exact h.grown.closed x hx (by simp [hn, hxa])
  · intro b hb _
    rwa [List.mem_singleton.1 hb]
  · intro x hx
    rcases h.reach x hx with hx | ⟨b, hb, hbx⟩
    · rcases List.mem_append.1 hx with hx | hx
      · exact Or.inl hx
      · exact Or.inr ⟨a, List.mem_singleton_self a, by rw [List.mem_singleton.1 hx]⟩
    · exact Or.inr ⟨a, List.mem_singleton_self a, Relation.ReflTransGen.head ⟨l, hsucc, hb⟩ hbx⟩

/-- One visit after the other: what has been seen only grows. -/
theorem visited_foldl {f : List α → α → List α}
    (hf : ∀ seen, room nodes seen < n → ∀ b, Visited succ seen [b] (f seen b)) (h : room nodes seen < n) (l : List α) :
    Visited succ seen l (l.foldl f seen) := by
  induction l generalizing seen with
  | nil => exact Visited.nil succ seen
  | cons b l ih =>
    have hb := hf seen h b
    exact hb.cons (ih (Nat.lt_of_le_of_lt (room_le hb.grown.subset) h))

variable (hnodes : ∀ a, (succ a).isSome → a ∈ nodes)

include hnodes in
theorem visited_visit (h : room nodes seen < n) (a : α) : Visited succ seen [a] (visit succ n seen a) := by
  induction n generalizing seen a with
  | zero => exact absurd h (Nat.not_lt_zero _)
  | succ n ih =>
    rw [visit]
    cases hsucc : succ a with
    | none =>
      refine ⟨Grown.refl succ seen, fun b hb hsome => ?_, fun _ hx => Or.inl hx⟩
      rw [List.mem_singleton.1 hb, hsucc] at hsome
      cases hsome
    | some l =>
      by_cases hs : a ∈ seen
      · simp only [if_pos hs]
        refine ⟨Grown.refl succ seen, fun b hb _ => ?_, fun _ hx => Or.inl hx⟩
        rwa [List.mem_singleton.1 hb]
      · simp only [if_neg hs]
        refine Visited.node hsucc hs ?_
        have hroom : room nodes (seen ++ [a]) < n :=
          Nat.lt_of_lt_of_le (room_lt (hnodes a (by rw [hsucc]; rfl)) hs) (Nat.le_of_lt_succ h)
        exact visited_foldl (fun seen hseen b => ih hseen b) hroom l

include hnodes in
theorem nodup_visit (h : nodes.length < n) (a : α) : (visit succ n [] a).Nodup :=
  (visited_visit hnodes (Nat.lt_of_le_of_lt (room_nil_le nodes) h) a).grown.nodup List.nodup_nil

include hnodes in
/-- A visit from the start sees the nodes that can be reached. -/
theorem mem_visit (h : nodes.length < n) :
    b ∈ visit succ n [] a ↔ (succ b).isSome ∧ Relation.ReflTransGen (Edge succ) a b := by
  have hvisit := visited_visit hnodes (Nat.lt_of_le_of_lt (room_nil_le nodes) h) a
  constructor
  · intro hb
    obtain ⟨l, hl, -⟩ := hvisit.grown.closed b hb List.not_mem_nil
    obtain ⟨c, hc, hreach⟩ := (hvisit.reach b hb).resolve_left List.not_mem_nil
    rw [List.mem_singleton.1 hc] at hreach
    exact ⟨by rw [hl]; rfl, hreach⟩
  · rintro ⟨hsome, hreach⟩
    induction hreach with
    | refl => exact hvisit.mem a (List.mem_singleton_self a) hsome
    | tail _ hedge ih =>
      obtain ⟨l, hl, hmem⟩ := hedge
      obtain ⟨l', hl', hall⟩ := hvisit.grown.closed _ (ih (by rw [hl]; rfl)) List.not_mem_nil
      obtain rfl : l = l' := Option.some.inj (hl.symm.trans hl')
      exact hall _ hmem hsome

end Dfs
