import Mathlib.Data.List.Nodup
import Mathlib.Data.List.Perm.Subperm

/-!
# The first number that is free

The loop `while taken(i): i = i + 1`. It ends when only finitely many numbers are taken: with a turn for each entry of a
list that lists what is taken, it ends at the first number from `i` on that is free (`firstFree_free`,
`taken_of_lt_firstFree`).
-/

/-- The number after at most `fuel` turns of the loop from `i`. -/
def firstFree (taken : Nat → Bool) : Nat → Nat → Nat
  | 0, i => i
  | fuel + 1, i => if taken i then firstFree taken fuel (i + 1) else i

section FirstFree

variable {taken : Nat → Bool}

theorem le_firstFree : ∀ fuel i, i ≤ firstFree taken fuel i
  | 0, i => Nat.le_refl i
  | fuel + 1, i => by
    rw [firstFree]
    split
    · exact Nat.le_of_succ_le (le_firstFree fuel (i + 1))
    · exact Nat.le_refl i

/-- What the loop passes is taken. -/
theorem taken_of_lt_firstFree : ∀ {fuel i j}, i ≤ j → j < firstFree taken fuel i → taken j
  | 0, _, _, hij, hj => absurd hj (Nat.not_lt.2 hij)
  | fuel + 1, i, j, hij, hj => by
    rw [firstFree] at hj
    split at hj
    · rename_i htaken
      rcases Nat.eq_or_lt_of_le hij with rfl | hlt
      · exact htaken
      · exact taken_of_lt_firstFree hlt hj
    · exact absurd hj (Nat.not_lt.2 hij)

/-- The loop ends at a free number, or has made all its turns. -/
theorem firstFree_eq_of_taken : ∀ {fuel i}, taken (firstFree taken fuel i) → firstFree taken fuel i = i + fuel
  | 0, _, _ => rfl
  | fuel + 1, i, h => by
    rw [firstFree] at h ⊢
    split at h
    · rename_i htaken
      rw [if_pos htaken, firstFree_eq_of_taken h]
      omega
    · rename_i hfree
      exact absurd h hfree

/-- With a turn for each entry of a list of what is taken, the loop ends at a free number. -/
theorem firstFree_free (taken : Nat → Bool) {α : Type*} {f : Nat → α} (hf : Function.Injective f) {l : List α}
    (hl : ∀ n, taken n → f n ∈ l) (i : Nat) : taken (firstFree taken l.length i) = false := by
  by_contra hne
  have htaken : taken (firstFree taken l.length i) = true := Bool.not_eq_false _ ▸ hne
  have hlast := firstFree_eq_of_taken htaken
  -- all of `i`, ..., `i + l.length` would be taken, one more than the list has
  have hall : ∀ n ∈ List.range (l.length + 1), f (i + n) ∈ l := by
    intro n hn
    apply hl
    have hle : n ≤ l.length := Nat.le_of_lt_succ (List.mem_range.1 hn)
    rcases Nat.eq_or_lt_of_le hle with rfl | hlt
    · rwa [← hlast]
    · have hbefore : i + n < firstFree taken l.length i := by omega
      exact taken_of_lt_firstFree (Nat.le_add_right i n) hbefore
  have hnodup : ((List.range (l.length + 1)).map fun n => f (i + n)).Nodup :=
    List.nodup_range.map fun _ _ h => Nat.add_left_cancel (hf h)
  have hsub : (List.range (l.length + 1)).map (fun n => f (i + n)) ⊆ l := by
    intro a ha
    obtain ⟨n, hn, rfl⟩ := List.mem_map.1 ha
    exact hall n hn
  have hlen := (hnodup.subperm hsub).length_le
  rw [List.length_map, List.length_range] at hlen
  omega

end FirstFree
