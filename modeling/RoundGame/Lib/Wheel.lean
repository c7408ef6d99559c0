import Mathlib.Data.List.Basic
import Mathlib.Logic.Function.Basic

/-!
# Wheels of timers

A wheel keeps entries with deadlines in slots. In which slot an entry belongs depends on its deadline and on the time
(`Scheme.place`). When the time goes on by one, the entries of one slot are filed anew (`Scheme.moved`); those of
another one are due then (`Scheme.due`).

`Filed s lo n slot q`: at the time `n` the slots hold the entries of the list `q`, each where it belongs, and those with
the same deadline in the order of `q`. This is kept when an entry comes (`Filed.file`), when the time goes on
(`Filed.advance`) and when the entries that are due are taken, which are those of `q` whose deadline is the time
(`Filed.due_eq`, `Filed.take`). Before the time goes on nothing is due (`Filed.due_nil`).
-/

namespace Wheel

open Function

/-- Deadlines are less than `reach` after the time. -/
structure Scheme (ι : Type) where
  reach : Nat
  place : Nat → Nat → ι
  moved : Nat → Option ι
  due : Nat → ι
  place_self (n : Nat) : place n n = due n
  eq_of_place {n d : Nat} (hle : n ≤ d) (hlt : d < n + reach) (h : place n d = due n) : d = n
  place_succ {n d : Nat} (hlt : n < d) (hreach : d < n + reach) (h : moved (n + 1) ≠ some (place n d)) :
    place (n + 1) d = place n d

variable {ι α : Type} [DecidableEq ι] {s : Scheme ι} {lo n d : Nat} {slot : ι → List (Nat × α)} {q l : List (Nat × α)}
  {e : Nat × α} {x : ι}

def ofDeadline (d : Nat) (l : List (Nat × α)) : List (Nat × α) := l.filter fun e => e.1 = d

theorem mem_ofDeadline : e ∈ ofDeadline d l ↔ e ∈ l ∧ e.1 = d := by
  simp [ofDeadline]

theorem ofDeadline_append (l l' : List (Nat × α)) : ofDeadline d (l ++ l') = ofDeadline d l ++ ofDeadline d l' := by
  simp [ofDeadline]

@[simp] theorem ofDeadline_nil : ofDeadline d ([] : List (Nat × α)) = [] := rfl

structure Filed (s : Scheme ι) (lo n : Nat) (slot : ι → List (Nat × α)) (q : List (Nat × α)) : Prop where
  bounds : ∀ e ∈ q, lo ≤ e.1 ∧ e.1 < n + s.reach
  slots : ∀ x d, ofDeadline d (slot x) = if s.place n d = x then ofDeadline d q else []

theorem Filed.mem (h : Filed s lo n slot q) (he : e ∈ slot x) : e ∈ q ∧ s.place n e.1 = x := by
  have hmem : e ∈ ofDeadline e.1 (slot x) := mem_ofDeadline.2 ⟨he, rfl⟩
  rw [h.slots] at hmem
  split at hmem
  · rename_i hplace
    exact ⟨(mem_ofDeadline.1 hmem).1, hplace⟩
  · cases hmem

theorem filed_empty (s : Scheme ι) (lo n : Nat) : Filed s lo n (fun _ => ([] : List (Nat × α))) [] :=
  ⟨by simp, by simp⟩

/-! ## Filing -/

def file (s : Scheme ι) (n : Nat) (slot : ι → List (Nat × α)) (e : Nat × α) : ι → List (Nat × α) :=
  update slot (s.place n e.1) (slot (s.place n e.1) ++ [e])

theorem ofDeadline_file (x : ι) :
    ofDeadline d (file s n slot e x) = ofDeadline d (slot x) ++ if s.place n d = x then ofDeadline d [e] else [] := by
  by_cases hx : x = s.place n e.1
  · subst hx
    rw [file, update_self, ofDeadline_append]
    congr 1
    by_cases hd : e.1 = d
    · rw [if_pos (by rw [hd])]
    · simp [ofDeadline, hd]
  · rw [file, update_of_ne hx]
    by_cases hd : e.1 = d
    · rw [if_neg (by rw [← hd]; exact Ne.symm hx), List.append_nil]
    · simp [ofDeadline, hd]

theorem ofDeadline_foldl (l : List (Nat × α)) (x : ι) : ofDeadline d (l.foldl (file s n) slot x) =
    ofDeadline d (slot x) ++ if s.place n d = x then ofDeadline d l else [] := by
  induction l generalizing slot with
  | nil => simp
  | cons e l ih =>
    rw [List.foldl_cons, ih, ofDeadline_file, List.append_assoc]
    split
    · rw [← ofDeadline_append, List.singleton_append]
    · rfl

theorem Filed.file (h : Filed s lo n slot q) (hlo : lo ≤ e.1) (hreach : e.1 < n + s.reach) :
    Filed s lo n (Wheel.file s n slot e) (q ++ [e]) := by
  refine ⟨?_, fun x d => ?_⟩
  · intro e' he'
    rcases List.mem_append.1 he' with he' | he'
    · exact h.bounds e' he'
    · rw [List.mem_singleton.1 he']
      exact ⟨hlo, hreach⟩
  · rw [ofDeadline_file, h.slots, ofDeadline_append]
    split <;> rfl

/-! ## Time -/

/-- The entries of the slot that is moved are filed anew, one after the other. -/
def advance (s : Scheme ι) (n : Nat) (slot : ι → List (Nat × α)) : ι → List (Nat × α) :=
  match s.moved n with
  | none => slot
  | some y => (slot y).foldl (file s n) (update slot y [])

theorem Filed.advance (h : Filed s (n + 1) n slot q) : Filed s (n + 1) (n + 1) (Wheel.advance s (n + 1) slot) q := by
  refine ⟨fun e he => ?_, fun x d => ?_⟩
  · obtain ⟨hlo, hreach⟩ := h.bounds e he
    exact ⟨hlo, by omega⟩
  -- a deadline that nobody has
  by_cases hd : ofDeadline d q = []
  · have hnone : ∀ x, ofDeadline d (slot x) = [] := by
      intro x
      rw [h.slots, hd, ite_self]
    rw [hd, ite_self, Wheel.advance]
    cases s.moved (n + 1) with
    | none => exact hnone x
    | some y =>
      simp only [ofDeadline_foldl, hnone, ite_self, List.append_nil]
      by_cases hx : x = y
      · rw [hx, update_self, ofDeadline_nil]
      · rw [update_of_ne hx, hnone]
  obtain ⟨e, he⟩ := List.exists_mem_of_ne_nil _ hd
  obtain ⟨hmem, rfl⟩ := mem_ofDeadline.1 he
  obtain ⟨hlo, hreach⟩ := h.bounds e hmem
  rw [Wheel.advance]
  cases hm : s.moved (n + 1) with
  | none =>
    have hsame := s.place_succ hlo hreach (by rw [hm]; exact (Option.some_ne_none _).symm)
    rw [hsame]
    exact h.slots x e.1
  | some y =>
    simp only [ofDeadline_foldl, h.slots y]
    by_cases hy : s.place n e.1 = y
    · -- the entries with this deadline are moved
      have hrest : ofDeadline e.1 (update slot y [] x) = [] := by
        by_cases hx : x = y
        · rw [hx, update_self, ofDeadline_nil]
        · rw [update_of_ne hx, h.slots, if_neg (by rw [hy]; exact Ne.symm hx)]
      rw [hrest, if_pos hy, List.nil_append]
    · have hsame := s.place_succ hlo hreach (by rw [hm]; exact fun heq => hy (Option.some.inj heq).symm)
      rw [if_neg hy, ite_self, List.append_nil, hsame]
      by_cases hx : x = y
      · rw [hx, update_self, if_neg hy, ofDeadline_nil]
      · rw [update_of_ne hx, h.slots]

/-- What is in the slot that is due. -/
theorem Filed.due_eq (h : Filed s n n slot q) : slot (s.due n) = ofDeadline n q := by
  have hall : ∀ e ∈ slot (s.due n), e.1 = n := by
    intro e he
    obtain ⟨hmem, hplace⟩ := h.mem he
    obtain ⟨hlo, hreach⟩ := h.bounds e hmem
    exact s.eq_of_place hlo hreach hplace
  have hself : ofDeadline n (slot (s.due n)) = slot (s.due n) := by
    rw [ofDeadline, List.filter_eq_self]
    simpa using hall
  rw [← hself, h.slots, if_pos (s.place_self n)]

/-- Nothing is due before the time goes on. -/
theorem Filed.due_nil (h : Filed s (n + 1) n slot q) : slot (s.due n) = [] := by
  rw [List.eq_nil_iff_forall_not_mem]
  intro e he
  obtain ⟨hmem, hplace⟩ := h.mem he
  obtain ⟨hlo, hreach⟩ := h.bounds e hmem
  have heq := s.eq_of_place (by omega) hreach hplace
  omega

theorem Filed.take (h : Filed s n n slot q) :
    Filed s (n + 1) n (update slot (s.due n) []) (q.filter fun e => e.1 ≠ n) := by
  have hother : ∀ d, d ≠ n → ofDeadline d (q.filter fun e => e.1 ≠ n) = ofDeadline d q := by
    intro d hd
    rw [ofDeadline, List.filter_filter]
    refine List.filter_congr fun e _ => ?_
    by_cases he : e.1 = d
    · simp [he, hd]
    · simp [he]
  have hsame : ofDeadline n (q.filter fun e => e.1 ≠ n) = [] := by
    rw [ofDeadline, List.filter_filter, List.filter_eq_nil_iff]
    simp
  refine ⟨fun e he => ?_, fun x d => ?_⟩
  · obtain ⟨hmem, hne⟩ := List.mem_filter.1 he
    obtain ⟨hlo, hreach⟩ := h.bounds e hmem
    rw [decide_eq_true_eq] at hne
    exact ⟨by omega, hreach⟩
  · by_cases hd : d = n
    · subst hd
      rw [hsame, ite_self]
      by_cases hx : x = s.due d
      · rw [hx, update_self, ofDeadline_nil]
      · rw [update_of_ne hx, h.slots, if_neg (by rw [s.place_self]; exact Ne.symm hx)]
    · rw [hother d hd]
      by_cases hx : x = s.due n
      · rw [hx, update_self, ofDeadline_nil]
        have hslot := h.slots (s.due n) d
        rw [h.due_eq] at hslot
        rw [← hslot, ofDeadline, ofDeadline, List.filter_filter, eq_comm, List.filter_eq_nil_iff]
        intro e _ he
        simp only [Bool.and_eq_true, decide_eq_true_eq] at he
        exact hd (he.1.symm.trans he.2)
      · rw [update_of_ne hx, h.slots]

end Wheel
