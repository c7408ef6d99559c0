import RoundGame.Base.TimerCancel

/-!
# One key of a timer

An object that uses a few keys of its own needs to know what is armed under one of them, whatever closures of other
keys do to their entries.

- `AllArmed s k P`: every closure armed under the key `k` satisfies `P`. Each operation keeps it, `AddTimeCb` under the
  key itself when the new closure satisfies `P`.
- `IndexedAt s k`: what is armed under `k` is the entry of `k`, so that `DelTimeCb` finds it (`IndexedAt.disarmed`). A
  closure that ends keeps it when it has another key, nothing is armed under the key, or it finds its own entry.
- `armedUnder s ks` lists what is armed under the keys `ks`. It is empty after a `DelTimeCb` of each of them iff it was
  indexed (`armedUnder_delAll`), and an `AddTimeCb` then adds its own closure (`armedUnder_addTimeCb`).
-/

namespace RoundGame.Base

namespace TimerSys

section Defs

variable {κ : Type}

def AllArmed (s : TimerSys κ) (k : κ) (P : Timeout κ → Prop) : Prop :=
  ∀ t ∈ s.pending, t.sKey = k → (s.timer.mIndex2Func t.iCb).isSome → P t

def IndexedAt (s : TimerSys κ) (k : κ) : Prop := s.AllArmed k fun t => s.timer.mKey2Index k = some t.iCb

/-- The timer after `DelTimeCb`. -/
def delTimeCb (s : TimerSys κ) (k : κ) : TimerSys κ := { s with timer := s.timer.delTimeCb k }

end Defs

variable {κ : Type} [DecidableEq κ] {s : TimerSys κ} {k k' : κ} {P Q : Timeout κ → Prop} {t : Timeout κ} {d : Nat}

omit [DecidableEq κ] in
theorem AllArmed.imp (h : s.AllArmed k P) (hPQ : ∀ t, P t → Q t) : s.AllArmed k Q :=
  fun t ht hk hf => hPQ t (h t ht hk hf)

omit [DecidableEq κ] in
theorem AllArmed.delTimeCb (h : s.AllArmed k P) (k' : κ) : (s.delTimeCb k').AllArmed k P := by
  intro u hu hk hf
  have hf' : ((s.timer.delTimeCb k').mIndex2Func u.iCb).isSome := hf
  rw [CTimer.delTimeCb_func] at hf'
  split at hf'
  · cases hf'
  · exact h u hu hk hf'

omit [DecidableEq κ] in
theorem IndexedAt.delTimeCb (h : s.IndexedAt k) (k' : κ) : (s.delTimeCb k').IndexedAt k := by
  intro u hu hk hf
  show (s.timer.delTimeCb k').mKey2Index k = some u.iCb
  rw [CTimer.delTimeCb_mKey2Index]
  exact AllArmed.delTimeCb h k' u hu hk hf

omit [DecidableEq κ] in
/-- `DelTimeCb` disarms what is armed under its key. -/
theorem IndexedAt.disarmed (h : s.IndexedAt k) : (s.delTimeCb k).AllArmed k fun _ => False := by
  intro u hu hk hf
  have hix : s.timer.mKey2Index k = some u.iCb := AllArmed.delTimeCb h k u hu hk hf
  have hf' : ((s.timer.delTimeCb k).mIndex2Func u.iCb).isSome := hf
  rw [CTimer.delTimeCb_func, if_pos hix] at hf'
  cases hf'

theorem AllArmed.addTimeCb (hi : Inv s) (h : s.AllArmed k P)
    (hP : k' = k → P ⟨s.keys.length, (s.timer.addTimeCb k' s.keys.length).1, k', s.now + d⟩) :
    (s.addTimeCb k' d).AllArmed k P := by
  intro u hu hk hf
  rcases List.mem_cons.1 hu with rfl | hu
  · exact hP hk
  · simp only [TimerSys.addTimeCb] at hf
    rw [CTimer.addTimeCb_func, if_neg (hi.addTimeCb_ne hu k'), CTimer.delTimeCb_func] at hf
    split at hf
    · cases hf
    · exact h u hu hk hf

theorem IndexedAt.addTimeCb (hi : Inv s) (h : s.IndexedAt k) : (s.addTimeCb k' d).IndexedAt k := by
  intro u hu hk hf
  show (s.timer.addTimeCb k' s.keys.length).2.mKey2Index k = some u.iCb
  rw [CTimer.addTimeCb_index]
  rcases List.mem_cons.1 hu with rfl | hu
  · rw [if_pos (show k = k' from hk.symm)]
  · simp only [TimerSys.addTimeCb] at hf
    rw [CTimer.addTimeCb_func, if_neg (hi.addTimeCb_ne hu k'), CTimer.delTimeCb_func] at hf
    split at hf
    · cases hf
    · next hne =>
      have hix := h u hu hk hf
      rw [if_neg fun e => hne (by rw [← e]; exact hix)]
      exact hix

/-- A closure that ends disarms nothing but itself. -/
theorem AllArmed.endTimeCb (h : s.AllArmed k P) {r p : List (Timeout κ)} (hp : ∀ u ∈ p, u ∈ s.pending) :
    AllArmed { s with running := r, pending := p, timer := s.timer.endTimeCb t.iCb t.sKey } k P :=
  fun u hu hk hf => h u (hp u hu) hk (PMap.isSome_update_none.1 hf).2

theorem IndexedAt.endTimeCb (h : s.IndexedAt k)
    (ht : t.sKey = k → OwnEntry s t ∨ s.AllArmed k fun _ => False) {r p : List (Timeout κ)}
    (hp : ∀ u ∈ p, u ∈ s.pending) :
    IndexedAt { s with running := r, pending := p, timer := s.timer.endTimeCb t.iCb t.sKey } k := by
  intro u hu hk hf
  obtain ⟨hne, hf⟩ := PMap.isSome_update_none.1 hf
  have hix := h u (hp u hu) hk hf
  refine PMap.update_none_eq_some.2 ⟨?_, hix⟩
  intro hkt
  rcases ht hkt.symm with hown | hnone
  · rw [hown u (hp u hu) hne (hkt ▸ hix)] at hf
    cases hf
  · exact hnone u (hp u hu) hk hf

theorem AllArmed.start (h : s.AllArmed k P) : (s.start t).AllArmed k P := by
  cases hf : s.timer.mIndex2Func t.iCb with
  | some f =>
    rw [start_some hf]
    exact fun u hu => h u (List.mem_of_mem_erase hu)
  | none =>
    rw [start_none hf]
    exact h.endTimeCb fun u hu => List.mem_of_mem_erase hu

theorem IndexedAt.start (h : s.IndexedAt k) (ht : s.timer.mIndex2Func t.iCb = none → t.sKey = k → OwnEntry s t) :
    (s.start t).IndexedAt k := by
  cases hf : s.timer.mIndex2Func t.iCb with
  | some f =>
    rw [start_some hf]
    exact fun u hu => h u (List.mem_of_mem_erase hu)
  | none =>
    rw [start_none hf]
    exact h.endTimeCb (fun hk => Or.inl (ht hf hk)) fun u hu => List.mem_of_mem_erase hu

theorem AllArmed.finish (h : s.AllArmed k P) : (s.finish t).AllArmed k P := h.endTimeCb fun _ hu => hu

theorem IndexedAt.finish (h : s.IndexedAt k) (ht : t.sKey = k → s.AllArmed k fun _ => False) :
    (s.finish t).IndexedAt k := h.endTimeCb (fun hk => Or.inr (ht hk)) fun _ hu => hu

/-! ## A few keys together -/

section Keys

omit [DecidableEq κ]

/-- The timer after a `DelTimeCb` of each of the keys. -/
def delAll (s : TimerSys κ) (ks : List κ) : TimerSys κ := ks.foldl delTimeCb s

/-- The entry of the key names no function. -/
def Cleared (s : TimerSys κ) (k : κ) : Prop := ∀ i, s.timer.mKey2Index k = some i → s.timer.mIndex2Func i = none

variable {ks : List κ}

theorem Inv.delTimeCb (h : Inv s) (k : κ) : Inv (s.delTimeCb k) := { h with held := h.held.delTimeCb k }

theorem Inv.delAll (h : Inv s) (ks : List κ) : Inv (s.delAll ks) := by
  induction ks generalizing s with
  | nil => exact h
  | cons k ks ih => exact ih (h.delTimeCb k)

@[simp] theorem delAll_pending (s : TimerSys κ) (ks : List κ) : (s.delAll ks).pending = s.pending := by
  induction ks generalizing s with
  | nil => rfl
  | cons k ks ih => exact ih (s.delTimeCb k)

theorem delAll_index (s : TimerSys κ) (ks : List κ) : (s.delAll ks).timer.mKey2Index = s.timer.mKey2Index := by
  induction ks generalizing s with
  | nil => rfl
  | cons k ks ih => exact (ih (s.delTimeCb k)).trans (CTimer.delTimeCb_mKey2Index _ k)

theorem delAll_func_isSome (s : TimerSys κ) (ks : List κ) (i : Nat) : ((s.delAll ks).timer.mIndex2Func i).isSome ↔
    (s.timer.mIndex2Func i).isSome ∧ ∀ k ∈ ks, s.timer.mKey2Index k ≠ some i := by
  induction ks generalizing s with
  | nil => exact (and_iff_left (List.forall_mem_nil _)).symm
  | cons k ks ih =>
    have hstep : ((s.delTimeCb k).timer.mIndex2Func i).isSome ↔
        (s.timer.mIndex2Func i).isSome ∧ s.timer.mKey2Index k ≠ some i := by
      show ((s.timer.delTimeCb k).mIndex2Func i).isSome ↔ _
      rw [CTimer.delTimeCb_func]
      split
      · rename_i hk
        exact iff_of_false (fun hc => nomatch hc) fun hc => hc.2 hk
      · rename_i hk
        exact (and_iff_left hk).symm
    have hindex : (s.delTimeCb k).timer.mKey2Index = s.timer.mKey2Index := CTimer.delTimeCb_mKey2Index _ k
    rw [show s.delAll (k :: ks) = (s.delTimeCb k).delAll ks from rfl, ih, hstep, hindex, List.forall_mem_cons,
      and_assoc]

theorem cleared_delAll {k : κ} (hk : k ∈ ks) : (s.delAll ks).Cleared k := by
  intro i hi
  rw [delAll_index] at hi
  refine Option.not_isSome_iff_eq_none.1 fun hf => ?_
  exact ((delAll_func_isSome s ks i).1 hf).2 k hk hi

end Keys

/-- What is armed under the keys `ks`. -/
def armedUnder (s : TimerSys κ) (ks : List κ) : List (Timeout κ) :=
  s.pending.filter fun t => decide (t.sKey ∈ ks) && (s.timer.mIndex2Func t.iCb).isSome

variable {ks ks' : List κ}

theorem mem_armedUnder : t ∈ s.armedUnder ks ↔ t ∈ s.pending ∧ t.sKey ∈ ks ∧ (s.timer.mIndex2Func t.iCb).isSome := by
  unfold armedUnder
  rw [List.mem_filter, Bool.and_eq_true, decide_eq_true_iff]

theorem armedUnder_delAll (hi : Inv s) (hks : ks ⊆ ks') :
    (s.delAll ks').armedUnder ks = [] ↔ ∀ k ∈ ks, s.IndexedAt k := by
  rw [List.eq_nil_iff_forall_not_mem]
  constructor
  · intro h k hk u hu huk hf
    by_contra hne
    refine h u (mem_armedUnder.2 ⟨by rwa [delAll_pending], huk ▸ hk, ?_⟩)
    refine (delAll_func_isSome s ks' u.iCb).2 ⟨hf, fun k' _ hk' => hne ?_⟩
    rw [← huk, hi.held.index_own (mem_held_of_pending hu) hk']
    exact hk'
  · intro h u hu
    obtain ⟨hu, huk, hf⟩ := mem_armedUnder.1 hu
    rw [delAll_pending] at hu
    obtain ⟨hf, hne⟩ := (delAll_func_isSome s ks' u.iCb).1 hf
    exact hne u.sKey (hks huk) (h u.sKey huk u hu rfl hf)

theorem armedUnder_addTimeCb (hi : Inv s) (hc : s.Cleared k) (hk : k ∈ ks) : (s.addTimeCb k d).armedUnder ks =
    ⟨s.keys.length, (s.timer.addTimeCb k s.keys.length).1, k, s.now + d⟩ :: s.armedUnder ks := by
  have hnew : ((s.timer.addTimeCb k s.keys.length).2.mIndex2Func (s.timer.addTimeCb k s.keys.length).1).isSome := by
    rw [CTimer.addTimeCb_func, if_pos rfl]
    rfl
  have hold : ∀ u ∈ s.pending,
      (s.timer.addTimeCb k s.keys.length).2.mIndex2Func u.iCb = s.timer.mIndex2Func u.iCb := by
    intro u hu
    rw [CTimer.addTimeCb_func, if_neg (hi.addTimeCb_ne hu k), CTimer.delTimeCb_func]
    split
    · rename_i hix
      exact (hc _ hix).symm
    · rfl
  refine (List.filter_cons_of_pos ?_).trans (congrArg _ (List.filter_congr fun u hu => ?_))
  · exact Bool.and_eq_true_iff.2 ⟨decide_eq_true hk, hnew⟩
  · show (_ && ((s.timer.addTimeCb k s.keys.length).2.mIndex2Func u.iCb).isSome) = _
    rw [hold u hu]

end TimerSys

end RoundGame.Base
