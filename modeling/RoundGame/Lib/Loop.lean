import Mathlib.Tactic.TypeStar

/-!
# Loops that may not end

A loop is a function `next : σ → Option σ`: the state after one more turn, `none` when the loop is left.

- `Ends next s`: the loop is left after finitely many turns. A turn does not change whether it ends (`ends_iff`), and a
  state from which every turn leads to another one of its kind does not (`not_ends`);
- `run next n s`: the state in which the loop is left, when `n` turns are enough. They are for some `n` when it ends
  (`ends_iff_run`);
- `Settles next f s v`: from some turn on, what `f` sees of the state is `v`. A turn does not change this either
  (`settles_iff`); after the last turn it is what `f` sees (`settles_of_none`), and while turns change nothing that `f`
  sees, too (`settles_of_kind`).
-/

namespace Loop

variable {σ α : Type*}

/-- The state after at most `n` turns. -/
def after (next : σ → Option σ) : Nat → σ → σ
  | 0, s => s
  | n + 1, s =>
    match next s with
    | some t => after next n t
    | none => s

def Ends (next : σ → Option σ) (s : σ) : Prop := ∃ n, next (after next n s) = none

/-- The state in which the loop is left, when that is after at most `n` turns. -/
def run (next : σ → Option σ) (n : Nat) (s : σ) : Option σ :=
  match next (after next n s) with
  | some _ => none
  | none => some (after next n s)

def Settles (next : σ → Option σ) (f : σ → α) (s : σ) (v : α) : Prop := ∃ n, ∀ m, n ≤ m → f (after next m s) = v

variable {next : σ → Option σ} {f : σ → α} {s t : σ} {v : α}

theorem after_succ (h : next s = some t) (n : Nat) : after next (n + 1) s = after next n t := by
  rw [after, h]

theorem after_of_none (h : next s = none) : ∀ n, after next n s = s
  | 0 => rfl
  | n + 1 => by rw [after, h]

theorem ends_of_none (h : next s = none) : Ends next s := ⟨0, h⟩

theorem ends_iff (h : next s = some t) : Ends next s ↔ Ends next t := by
  constructor
  · rintro ⟨n, hn⟩
    cases n with
    | zero =>
      rw [after, h] at hn
      cases hn
    | succ n => exact ⟨n, by rwa [after_succ h] at hn⟩
  · rintro ⟨n, hn⟩
    exact ⟨n + 1, by rwa [after_succ h]⟩

theorem run_of_none (h : next s = none) (n : Nat) : run next n s = some s := by
  rw [run, after_of_none h, h]

theorem run_succ (h : next s = some t) (n : Nat) : run next (n + 1) s = run next n t := by
  rw [run, run, after_succ h]

/-- More turns than enough are enough. -/
theorem run_le {n m : Nat} (h : run next n s = some t) (hnm : n ≤ m) : run next m s = some t := by
  induction n generalizing s m with
  | zero =>
    cases hnext : next s with
    | none => rwa [run_of_none hnext, ← run_of_none hnext 0]
    | some s' =>
      rw [run, after, hnext] at h
      cases h
  | succ n ih =>
    cases hnext : next s with
    | none => rwa [run_of_none hnext, ← run_of_none hnext (n + 1)]
    | some s' =>
      obtain ⟨m, rfl⟩ : ∃ k, m = k + 1 := ⟨m - 1, (Nat.succ_pred_eq_of_pos (Nat.lt_of_lt_of_le n.succ_pos hnm)).symm⟩
      rw [run_succ hnext] at h ⊢
      exact ih h (Nat.le_of_succ_le_succ hnm)

theorem ends_iff_run : Ends next s ↔ ∃ n, (run next n s).isSome := by
  refine exists_congr fun n => ?_
  rw [run]
  cases next (after next n s) <;> simp

theorem settles_of_none (h : next s = none) : Settles next f s v ↔ f s = v := by
  constructor
  · rintro ⟨n, hn⟩
    rw [← hn n (Nat.le_refl n), after_of_none h]
  · exact fun hv => ⟨0, fun m _ => by rwa [after_of_none h]⟩

theorem settles_iff (h : next s = some t) : Settles next f s v ↔ Settles next f t v := by
  constructor
  · rintro ⟨n, hn⟩
    refine ⟨n, fun m hm => ?_⟩
    rw [← after_succ h]
    exact hn (m + 1) (Nat.le_succ_of_le hm)
  · rintro ⟨n, hn⟩
    refine ⟨n + 1, fun m hm => ?_⟩
    obtain ⟨k, rfl⟩ : ∃ k, m = k + 1 := ⟨m - 1, (Nat.succ_pred_eq_of_pos (Nat.lt_of_lt_of_le n.succ_pos hm)).symm⟩
    rw [after_succ h]
    exact hn k (Nat.le_of_succ_le_succ hm)

/-! ## Loops that are not left -/

/-- Every state of this kind has a next one, of the same kind. -/
def Kind (next : σ → Option σ) (I : σ → Prop) : Prop := ∀ s, I s → ∃ t, next s = some t ∧ I t

variable {I : σ → Prop}

theorem Kind.after (h : Kind next I) (hs : I s) (n : Nat) : I (after next n s) := by
  induction n generalizing s with
  | zero => exact hs
  | succ n ih =>
    obtain ⟨t, ht, hI⟩ := h s hs
    rw [after_succ ht]
    exact ih hI

theorem not_ends (h : Kind next I) (hs : I s) : ¬ Ends next s := by
  rintro ⟨n, hn⟩
  obtain ⟨t, ht, -⟩ := h _ (h.after hs n)
  rw [hn] at ht
  cases ht

theorem settles_of_kind (h : Kind next fun t => I t ∧ f t = f s) (hs : I s) : Settles next f s v ↔ f s = v := by
  have hkeep : ∀ n, f (Loop.after next n s) = f s := fun n => (h.after ⟨hs, rfl⟩ n).2
  constructor
  · rintro ⟨n, hn⟩
    rw [← hn n (Nat.le_refl n), hkeep]
  · exact fun hv => ⟨0, fun m _ => (hkeep m).trans hv⟩

end Loop
