import Mathlib.Algebra.GroupWithZero.Nat
import Mathlib.Algebra.Order.BigOperators.Group.List
import Mathlib.Algebra.Order.Group.Nat
import Mathlib.Data.List.Basic

/-!
# Threads with stacks

The threads of a program are a list of stacks of frames, each with the frame that is executed on top. A step of a thread
replaces its top frame by some frames.

`tally w ts`: what all frames of all threads hold together, where `w f` is what the frame `f` holds. A step changes it
by what its frames hold more or less (`tally_step`). When the tally is 1, one frame holds it all (`unique_of_tally`).
-/

namespace Threads

variable {φ : Type*}

/-- What all frames of all threads hold together. -/
def tally (w : φ → Nat) (ts : List (List φ)) : Nat := (ts.map fun st => (st.map w).sum).sum

variable {w : φ → Nat} {ts : List (List φ)} {t : Nat} {f : φ} {st : List φ}

@[simp] theorem tally_nil : tally w [] = 0 := rfl

@[simp] theorem tally_cons (st : List φ) (ts : List (List φ)) : tally w (st :: ts) = (st.map w).sum + tally w ts := by
  rw [tally, List.map_cons, List.sum_cons, tally]

/-- A step of the thread `t` that replaces its top frame. -/
theorem tally_step (h : ts[t]? = some (f :: st)) (fs : List φ) :
    tally w (ts.set t (fs ++ st)) + w f = tally w ts + (fs.map w).sum := by
  induction ts generalizing t with
  | nil => cases h
  | cons st' ts ih =>
    cases t with
    | zero =>
      obtain rfl : st' = f :: st := Option.some.inj h
      rw [List.set_cons_zero, tally_cons, tally_cons, List.map_append, List.sum_append, List.map_cons, List.sum_cons]
      omega
    | succ t =>
      have hrec := ih h
      rw [List.set_cons_succ, tally_cons, tally_cons]
      omega

theorem le_tally (h : st ∈ ts) (hf : f ∈ st) : w f ≤ tally w ts := by
  induction ts with
  | nil => cases h
  | cons st' ts ih =>
    rw [tally_cons]
    rcases List.mem_cons.1 h with rfl | h
    · exact (List.le_sum_of_mem (List.mem_map_of_mem hf)).trans (Nat.le_add_right _ _)
    · exact (ih h).trans (Nat.le_add_left _ _)

theorem tally_eq_zero (h : ∀ st ∈ ts, ∀ f ∈ st, w f = 0) : tally w ts = 0 := by
  induction ts with
  | nil => rfl
  | cons st ts ih =>
    rw [tally_cons, ih fun st' hst' => h st' (List.mem_cons_of_mem st hst'), Nat.add_zero, List.sum_eq_zero]
    intro n hn
    obtain ⟨f, hf, rfl⟩ := List.mem_map.1 hn
    exact h st List.mem_cons_self f hf

/-- What is held is held by some frame. -/
theorem exists_of_tally_pos (h : 0 < tally w ts) : ∃ st ∈ ts, ∃ f ∈ st, 0 < w f := by
  by_contra hno
  have hzero : tally w ts = 0 := tally_eq_zero fun st hst f hf => by
    by_contra hne
    exact hno ⟨st, hst, f, hf, Nat.pos_of_ne_zero hne⟩
  omega

/-- What holds of every frame holds after a step when it does of the new frames. -/
theorem forall_step {P : φ → Prop} (hP : ∀ st ∈ ts, ∀ f ∈ st, P f) (h : ts[t]? = some (f :: st)) {fs : List φ}
    (hfs : ∀ g ∈ fs, P g) : ∀ st' ∈ ts.set t (fs ++ st), ∀ g ∈ st', P g := by
  intro st' hst' g hg
  rcases List.mem_or_eq_of_mem_set hst' with hold | rfl
  · exact hP st' hold g hg
  · rcases List.mem_append.1 hg with hnew | hrest
    · exact hfs g hnew
    · exact hP _ (List.mem_of_getElem? h) g (List.mem_cons_of_mem f hrest)

/-- Two places of a list that both hold something. -/
theorem two_le_sum_of_ne {l : List Nat} {i j : Nat} (hne : i ≠ j) {a b : Nat} (hi : l[i]? = some a)
    (hj : l[j]? = some b) : a + b ≤ l.sum := by
  induction l generalizing i j with
  | nil => cases hi
  | cons n l ih =>
    rw [List.sum_cons]
    cases i with
    | zero =>
      cases j with
      | zero => exact absurd rfl hne
      | succ j =>
        obtain rfl : n = a := Option.some.inj hi
        have hle : b ≤ l.sum := List.le_sum_of_mem (List.mem_of_getElem? hj)
        omega
    | succ i =>
      cases j with
      | zero =>
        obtain rfl : n = b := Option.some.inj hj
        have hle : a ≤ l.sum := List.le_sum_of_mem (List.mem_of_getElem? hi)
        omega
      | succ j =>
        have hrec := ih (fun heq => hne (congrArg (· + 1) heq)) hi hj
        omega

/-- Two frames, at different places of the same stack or of different ones, cannot both hold what there is one of. -/
theorem unique_of_tally (h : tally w ts ≤ 1) {i j : Nat} {st' : List φ} {k : Nat} {g : φ} (hst : ts[t]? = some st)
    (hf : st[i]? = some f) (hst' : ts[k]? = some st') (hg : st'[j]? = some g) (hwf : 0 < w f) (hwg : 0 < w g) :
    t = k ∧ i = j := by
  have hsum : ∀ {s : List φ} {i : Nat} {f : φ}, s[i]? = some f → (s.map w)[i]? = some (w f) := by
    intro s i f hf
    rw [List.getElem?_map, hf]
    rfl
  have hle : ∀ {s : List φ} {i : Nat} {f : φ}, s[i]? = some f → w f ≤ (s.map w).sum := fun hf =>
    List.le_sum_of_mem (List.mem_of_getElem? (hsum hf))
  by_cases htk : t = k
  · subst htk
    obtain rfl : st = st' := Option.some.inj (hst.symm.trans hst')
    refine ⟨rfl, ?_⟩
    by_contra hij
    have htwo := two_le_sum_of_ne hij (hsum hf) (hsum hg)
    have hone : (st.map w).sum ≤ tally w ts :=
      List.le_sum_of_mem (List.mem_map_of_mem (f := fun st => (st.map w).sum) (List.mem_of_getElem? hst))
    omega
  · have htwo : (st.map w).sum + (st'.map w).sum ≤ tally w ts := by
      refine two_le_sum_of_ne htk ?_ ?_
      · rw [List.getElem?_map, hst]
        rfl
      · rw [List.getElem?_map, hst']
        rfl
    have h1 := hle hf
    have h2 := hle hg
    omega

end Threads
