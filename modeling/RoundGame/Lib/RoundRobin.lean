import Mathlib.Data.List.Basic

/-!
# Round robin

`turns l n`: the first `n` elements of a list that is gone through again and again. An element that stands in the list
`c` times has between `c * ⌊n / size⌋` and `c * ⌈n / size⌉` of the turns (`count_turns_ge`, `count_turns_le`).
-/

namespace RoundRobin

variable {α : Type*} {l : List α} {n : Nat}

def turns (l : List α) (n : Nat) : List α := (List.range n).filterMap fun k => l[k % l.length]?

theorem turns_succ (l : List α) (n : Nat) : turns l (n + 1) = turns l n ++ (l[n % l.length]?).toList := by
  rw [turns, List.range_succ, List.filterMap_append, ← turns, List.filterMap_cons]
  cases l[n % l.length]? <;> rfl

/-- Each turn takes an element of the list. -/
theorem getElem?_turn (h : l ≠ []) (n : Nat) : ∃ a ∈ l, l[n % l.length]? = some a := by
  have hlt : n % l.length < l.length := Nat.mod_lt n (List.length_pos_iff.2 h)
  exact ⟨l[n % l.length], List.getElem_mem hlt, List.getElem?_eq_getElem hlt⟩

/-- With the next number a round goes on, or it is over and another one begins. -/
theorem div_mod_succ {size : Nat} (hpos : 0 < size) (n : Nat) :
    (n % size + 1 = size ∧ (n + 1) / size = n / size + 1 ∧ (n + 1) % size = 0) ∨
      (n % size + 1 < size ∧ (n + 1) / size = n / size ∧ (n + 1) % size = n % size + 1) := by
  have hn := Nat.mod_add_div n size
  have hlt := Nat.mod_lt n hpos
  by_cases hlast : n % size + 1 = size
  · have hover : 0 + size * (n / size + 1) = n + 1 := by
      rw [Nat.mul_succ]
      omega
    exact Or.inl ⟨hlast, (Nat.div_mod_unique hpos).2 ⟨hover, hpos⟩⟩
  · exact Or.inr ⟨by omega, (Nat.div_mod_unique hpos).2 ⟨by omega, by omega⟩⟩

variable [DecidableEq α]

/-- The turns are whole rounds and the beginning of another one. -/
theorem count_turns (h : l ≠ []) (a : α) (n : Nat) :
    (turns l n).count a = l.count a * (n / l.length) + (l.take (n % l.length)).count a := by
  have hpos : 0 < l.length := List.length_pos_iff.2 h
  induction n with
  | zero => simp [turns]
  | succ n ih =>
    have htake : (l.take (n % l.length)).count a + ((l[n % l.length]?).toList).count a =
        (l.take (n % l.length + 1)).count a := by
      rw [List.take_add_one, List.count_append]
    rw [turns_succ, List.count_append, ih, Nat.add_assoc, htake]
    rcases div_mod_succ hpos n with ⟨hlast, hdiv, hmod⟩ | ⟨-, hdiv, hmod⟩
    · rw [hlast, List.take_length, hdiv, hmod, List.take_zero, List.count_nil, Nat.mul_succ, Nat.add_zero]
    · rw [hdiv, hmod]

theorem count_turns_ge (h : l ≠ []) (a : α) (n : Nat) : l.count a * (n / l.length) ≤ (turns l n).count a := by
  rw [count_turns h]
  exact Nat.le_add_right _ _

theorem count_turns_le (h : l ≠ []) (a : α) (n : Nat) :
    (turns l n).count a ≤ l.count a * ((n + l.length - 1) / l.length) := by
  have hpos : 0 < l.length := List.length_pos_iff.2 h
  rw [count_turns h]
  rcases Nat.eq_zero_or_pos (n % l.length) with hmod | hmod
  · rw [hmod, List.take_zero, List.count_nil, Nat.add_zero]
    exact Nat.mul_le_mul_left _ (Nat.div_le_div_right (by omega))
  · have hdiv : n / l.length + 1 ≤ (n + l.length - 1) / l.length := by
      rw [← Nat.add_div_right n hpos, Nat.le_div_iff_mul_le hpos, Nat.add_div_right n hpos]
      have hn := Nat.div_add_mod n l.length
      rw [Nat.add_mul, Nat.one_mul, Nat.mul_comm]
      omega
    calc l.count a * (n / l.length) + (l.take (n % l.length)).count a
        ≤ l.count a * (n / l.length) + l.count a := Nat.add_le_add_left ((List.take_sublist _ _).count_le a) _
      _ = l.count a * (n / l.length + 1) := (Nat.mul_succ _ _).symm
      _ ≤ l.count a * ((n + l.length - 1) / l.length) := Nat.mul_le_mul_left _ hdiv

end RoundRobin
