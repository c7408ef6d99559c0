import Mathlib.Tactic.Ring
import Mathlib.Data.List.Range

/-!
# Hexadecimal numerals

- `value l`: the number that a numeral stands for, most significant digit first;
- `numeral f k`: the `k` digits `f (k - 1)`, ..., `f 0`, each a number under 16. Bit `j` of its value is bit `j % 4` of
  digit `j / 4` (`testBit_value_numeral`).
-/

namespace Hex

/-- The value of a digit. -/
def digit (c : Char) : Nat := if c.isDigit then c.toNat - '0'.toNat else c.toNat - 'a'.toNat + 10

def value (l : List Char) : Nat := l.foldl (fun n c => 16 * n + digit c) 0

/-- The digits. -/
def alphabet : List Char := ['0', '1', '2', '3', '4', '5', '6', '7', '8', '9', 'a', 'b', 'c', 'd', 'e', 'f']

def IsNumeral (l : List Char) : Prop := ∀ c ∈ l, c ∈ alphabet

/-- The digits `f (k - 1)`, ..., `f 0`. -/
def numeral (f : Nat → Nat) (k : Nat) : List Char := (List.range k).reverse.map fun i => Nat.digitChar (f i)

theorem digit_digitChar : ∀ n < 16, digit (Nat.digitChar n) = n := by decide

theorem digitChar_mem : ∀ n < 16, Nat.digitChar n ∈ alphabet := by decide

theorem value_concat (l : List Char) (c : Char) : value (l ++ [c]) = 16 * value l + digit c := by
  simp only [value, List.foldl_append, List.foldl_cons, List.foldl_nil]

theorem numeral_succ (f : Nat → Nat) (k : Nat) :
    numeral f (k + 1) = numeral (fun i => f (i + 1)) k ++ [Nat.digitChar (f 0)] := by
  simp [numeral, List.range_succ_eq_map, List.map_reverse, Function.comp_def]

theorem isNumeral_numeral {f : Nat → Nat} (hf : ∀ i, f i < 16) (k : Nat) : IsNumeral (numeral f k) := by
  intro c hc
  obtain ⟨i, -, rfl⟩ := List.mem_map.1 hc
  exact digitChar_mem (f i) (hf i)

/-- The bits of a numeral. -/
theorem testBit_value_numeral {f : Nat → Nat} (hf : ∀ i, f i < 16) (k j : Nat) :
    (value (numeral f k)).testBit j = (decide (j / 4 < k) && (f (j / 4)).testBit (j % 4)) := by
  induction k generalizing f j with
  | zero => simp [numeral, value]
  | succ k ih =>
    rw [numeral_succ, value_concat, digit_digitChar _ (hf 0)]
    have hlt : f 0 < 2 ^ 4 := hf 0
    have hbit := Nat.testBit_two_pow_mul_add (value (numeral (fun i => f (i + 1)) k)) hlt j
    rw [show (16 : Nat) = 2 ^ 4 from rfl, hbit]
    by_cases hj : j < 4
    · have hq : j / 4 = 0 := by omega
      have hr : j % 4 = j := by omega
      simp [hj, hq, hr]
    · -- the rest of the digits, four bits up
      have hq : j / 4 = (j - 4) / 4 + 1 := by omega
      have hr : j % 4 = (j - 4) % 4 := by omega
      rw [if_neg hj, ih (fun i => hf (i + 1)), hq, hr]
      simp

end Hex
