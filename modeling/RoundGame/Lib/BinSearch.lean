import Mathlib.Data.List.Basic
import Mathlib.Data.List.InsertIdx

/-!
# Binary search

`search cmp n l lo hi`: the search for an entry of the list `l` in the window from `lo` to `hi` (which is not in it),
where `cmp a` compares the entry `a` with what is looked for. It gives the place of an entry that compares equal, or the
place where one would have to stand.

- An entry that is found compares equal (`getElem?_of_search_ok`), whatever the order of the list.
- In a list sorted for `cmp`, an entry is missed only when there is none: those before the place compare less, those
  from it on compare greater (`search_error_spec`).
-/

namespace BinSearch

variable {α : Type*} (cmp : α → Ordering)

/-- The loop, with at most `n` turns. -/
def search : Nat → List α → Nat → Nat → Except Nat Nat
  | 0, _, lo, _ => .error lo
  | n + 1, l, lo, hi =>
    if lo < hi then
      let mid := (lo + hi - 1) / 2
      match l[mid]? with
      | none => .error lo
      | some a =>
        match cmp a with
        | .eq => .ok mid
        | .lt => search n l (mid + 1) hi
        | .gt => search n l lo mid
    else .error lo

/-- The list is sorted for the comparison: first the entries that compare less, then at most one that compares equal,
then those that compare greater. -/
def Sorted (l : List α) : Prop :=
  l.Pairwise fun a b => (cmp b ≠ .gt → cmp a = .lt) ∧ (cmp a ≠ .lt → cmp b = .gt)

/-- What is known of the window: the entries before it compare less, those after it compare greater. -/
def Window (l : List α) (lo hi : Nat) : Prop :=
  lo ≤ hi ∧ hi ≤ l.length ∧ (∀ i a, i < lo → l[i]? = some a → cmp a = .lt) ∧
    ∀ i a, hi ≤ i → l[i]? = some a → cmp a = .gt

variable {cmp} {l : List α} {n lo hi i : Nat}

theorem getElem?_of_search_ok (h : search cmp n l lo hi = .ok i) : ∃ a, l[i]? = some a ∧ cmp a = .eq := by
  induction n generalizing lo hi with
  | zero => cases h
  | succ n ih =>
    rw [search] at h
    split at h
    · dsimp only at h
      split at h
      · cases h
      · rename_i a ha
        split at h
        · rename_i heq
          cases h
          exact ⟨a, ha, heq⟩
        · exact ih h
        · exact ih h
    · cases h

theorem Sorted.lt_of_le (hl : Sorted cmp l) {i j : Nat} {a b : α} (hij : i ≤ j) (ha : l[i]? = some a)
    (hb : l[j]? = some b) (hlt : cmp b = .lt) : cmp a = .lt := by
  rcases Nat.eq_or_lt_of_le hij with rfl | hij
  · rw [ha] at hb
    cases hb
    exact hlt
  · obtain ⟨hi, rfl⟩ := List.getElem?_eq_some_iff.1 ha
    obtain ⟨hj, rfl⟩ := List.getElem?_eq_some_iff.1 hb
    exact (List.pairwise_iff_getElem.1 hl i j hi hj hij).1 (by simp [hlt])

theorem Sorted.gt_of_le (hl : Sorted cmp l) {i j : Nat} {a b : α} (hij : i ≤ j) (ha : l[i]? = some a)
    (hb : l[j]? = some b) (hgt : cmp a = .gt) : cmp b = .gt := by
  rcases Nat.eq_or_lt_of_le hij with rfl | hij
  · rw [ha] at hb
    cases hb
    exact hgt
  · obtain ⟨hi, rfl⟩ := List.getElem?_eq_some_iff.1 ha
    obtain ⟨hj, rfl⟩ := List.getElem?_eq_some_iff.1 hb
    exact (List.pairwise_iff_getElem.1 hl i j hi hj hij).2 (by simp [hgt])

theorem window_all (l : List α) : Window cmp l 0 l.length := by
  refine ⟨Nat.zero_le _, Nat.le_refl _, ?_, ?_⟩
  · intro i _ hi
    exact absurd hi (Nat.not_lt_zero i)
  · intro i a hi ha
    have hlt := (List.getElem?_eq_some_iff.1 ha).1
    omega

/-- An entry is missed only when the window has closed at the place of the answer. -/
theorem search_error_window (hl : Sorted cmp l) (hw : Window cmp l lo hi) (hn : hi - lo ≤ n)
    (h : search cmp n l lo hi = .error i) : Window cmp l i i := by
  induction n generalizing lo hi with
  | zero =>
    obtain rfl : lo = i := Except.error.inj h
    have heq : hi = lo := Nat.le_antisymm (by omega) hw.1
    rwa [heq] at hw
  | succ n ih =>
    obtain ⟨hle, hlen, hbelow, habove⟩ := hw
    rw [search] at h
    split at h
    · rename_i hlt
      have hmid : (lo + hi - 1) / 2 < l.length := by omega
      have hget : l[(lo + hi - 1) / 2]? = some l[(lo + hi - 1) / 2] := List.getElem?_eq_getElem hmid
      simp only [hget] at h
      split at h
      · cases h
      · rename_i hless
        refine ih ⟨by omega, hlen, ?_, habove⟩ (by omega) h
        intro j a hj ha
        exact hl.lt_of_le (Nat.le_of_lt_succ hj) ha hget hless
      · rename_i hgreater
        refine ih ⟨by omega, by omega, hbelow, ?_⟩ (by omega) h
        intro j a hj ha
        exact hl.gt_of_le hj hget ha hgreater
    · rename_i hnot
      obtain rfl : lo = i := Except.error.inj h
      obtain rfl : hi = lo := by omega
      exact ⟨hle, hlen, hbelow, habove⟩

theorem search_error_spec (hl : Sorted cmp l) (h : search cmp l.length l 0 l.length = .error i) :
    i ≤ l.length ∧ (∀ a ∈ l.take i, cmp a = .lt) ∧ ∀ a ∈ l.drop i, cmp a = .gt := by
  obtain ⟨_, hle, hbelow, habove⟩ := search_error_window hl (window_all l) (by omega) h
  refine ⟨hle, ?_, ?_⟩
  · intro a ha
    obtain ⟨j, hj⟩ := List.mem_iff_getElem?.1 ha
    rw [List.getElem?_take] at hj
    split at hj
    · exact hbelow j a (by assumption) hj
    · cases hj
  · intro a ha
    obtain ⟨j, hj⟩ := List.mem_iff_getElem?.1 ha
    rw [List.getElem?_drop] at hj
    exact habove (i + j) a (Nat.le_add_right i j) hj

/-- The entry that is looked for is found exactly when it is there. -/
theorem search_error_not_mem (hl : Sorted cmp l) (h : search cmp l.length l 0 l.length = .error i)
    {a : α} (ha : a ∈ l) : cmp a ≠ .eq := by
  obtain ⟨_, hbelow, habove⟩ := search_error_spec hl h
  rw [← List.take_append_drop i l, List.mem_append] at ha
  rcases ha with ha | ha
  · rw [hbelow a ha]
    decide
  · rw [habove a ha]
    decide

end BinSearch
