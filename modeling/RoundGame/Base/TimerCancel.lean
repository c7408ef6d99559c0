import RoundGame.Base.TimerRun

/-!
# Cancelling a timer

`DelTimeCb` and `AddTimeCb` find what they cancel through the entry of the key, and a closure that ends clears the
entry of its key whatever id it holds.

- While every armed registration is the entry of its key (`Indexed`), a cancel disarms all that the key has
  (`cancel_disarms`), and a disarmed registration is never started (`calls_run_armed`).
- The steps keep `Indexed` as long as no closure that ends clears the entry of another armed registration
  (`indexed_step`), so in such runs cancellation is final (`cancel_final`).
- One such clean-up is enough to break it (`lost_entry_not_final`; `cancel_not_final` is the shortest run of this
  kind).
-/

namespace RoundGame.Base

open StepSys

namespace TimerSys

variable {κ : Type} [DecidableEq κ] {s s' t : TimerSys κ} {es : List (TimerEv κ)} {e : TimerEv κ} {n : Nat}

/-- No callback that was registered under a key before the key is cancelled is started afterwards. -/
def CancelFinal (es : List (TimerEv κ)) : Prop :=
  ∀ es₁ e es₂ k s₁ s₂, es = es₁ ++ e :: es₂ → e.Cancels k → run step new es₁ = some s₁ →
    run step s₁ (e :: es₂) = some s₂ → ∃ l, s₂.calls = s₁.calls ++ l ∧ ∀ c ∈ l, s₁.keys[c.2]? ≠ some k

/-- The closure `t` does not find the id of another armed registration in the entry of its key. -/
def OwnEntry (s : TimerSys κ) (t : Timeout κ) : Prop :=
  ∀ u ∈ s.pending, u.iCb ≠ t.iCb → s.timer.mKey2Index t.sKey = some u.iCb → s.timer.mIndex2Func u.iCb = none

/-- A closure that ends in this step does so with `OwnEntry`. -/
def KeepsEntries (s : TimerSys κ) : TimerEv κ → Prop
  | .fire n => ∀ t ∈ s.pending, t.reg = n → s.timer.mIndex2Func t.iCb = none → OwnEntry s t
  | .finish n => ∀ t ∈ s.running, t.reg = n → OwnEntry s t
  | _ => True

instance (s : TimerSys κ) (t : Timeout κ) : Decidable (OwnEntry s t) := by unfold OwnEntry; infer_instance

instance (s : TimerSys κ) : ∀ e, Decidable (KeepsEntries s e)
  | .fire n =>
    inferInstanceAs (Decidable (∀ t ∈ s.pending, t.reg = n → s.timer.mIndex2Func t.iCb = none → OwnEntry s t))
  | .finish n => inferInstanceAs (Decidable (∀ t ∈ s.running, t.reg = n → OwnEntry s t))
  | .addTimeCb _ _ | .delTimeCb _ | .release | .tick _ => isTrue trivial

/-- A closure that ends with `OwnEntry` leaves every armed registration in the entry of its key. -/
theorem indexed_endTimeCb (h : Indexed s) {t : Timeout κ} (ht : OwnEntry s t) {r p : List (Timeout κ)}
    (hp : ∀ u ∈ p, u ∈ s.pending) :
    Indexed { s with running := r, pending := p, timer := s.timer.endTimeCb t.iCb t.sKey } := by
  intro u hu hf
  obtain ⟨hne, hf⟩ := PMap.isSome_update_none.1 hf
  have hix := h u (hp u hu) hf
  refine PMap.update_none_eq_some.2 ⟨fun hk => ?_, hix⟩
  rw [ht u (hp u hu) hne (hk ▸ hix)] at hf
  cases hf

theorem indexed_step (hi : Inv s) (h : Indexed s) (hc : KeepsEntries s e) (hs : step s e = some s') :
    Indexed s' := by
  rcases step_cases hs with ⟨k, d, -, rfl⟩ | ⟨k, -, rfl⟩ | ⟨-, rfl⟩ | ⟨m, -, rfl⟩ | ⟨t, ht, rfl, -, rfl⟩ |
    ⟨t, ht, rfl, rfl⟩
  · intro u hu hf
    rcases List.mem_cons.1 hu with rfl | hu
    · simp [TimerSys.addTimeCb, CTimer.addTimeCb_index]
    · simp only [TimerSys.addTimeCb] at hf ⊢
      rw [CTimer.addTimeCb_func, if_neg (hi.addTimeCb_ne hu k), CTimer.delTimeCb_func] at hf
      split at hf
      · cases hf
      · next hne =>
        have hix := h u hu hf
        have hk : u.sKey ≠ k := fun e => hne (e ▸ hix)
        rw [CTimer.addTimeCb_index, if_neg hk]
        exact hix
  · intro u hu hf
    simp only [CTimer.delTimeCb_func] at hf
    split at hf
    · cases hf
    · rw [CTimer.delTimeCb_mKey2Index]; exact h u hu hf
  · intro u hu hf
    cases hf
  · exact h
  · cases hf : s.timer.mIndex2Func t.iCb with
    | none =>
      rw [start_none hf]
      exact indexed_endTimeCb h (hc t ht rfl hf) (fun u hu => List.mem_of_mem_erase hu)
    | some f =>
      rw [start_some hf]
      exact fun u hu => h u (List.mem_of_mem_erase hu)
  · exact indexed_endTimeCb h (hc t ht rfl) (fun u hu => hu)

/-- With every armed registration in its key's entry, a cancel disarms all that the key has. -/
theorem cancel_disarms (hi : Inv s) (h : Indexed s) {k : κ} (hc : e.Cancels k) (hs : step s e = some s')
    (hk : s.keys[n]? = some k) : ¬ Armed s' n := by
  rintro ⟨t, ht, rfl, hf⟩
  have hkey : ∀ u ∈ s.pending, u.reg = t.reg → u.sKey = k := fun u hu hr =>
    Option.some.inj ((hi.key u (mem_held_of_pending hu)).symm.trans (hr ▸ hk))
  cases e with
  | addTimeCb k' d =>
    obtain rfl : k' = k := hc
    obtain rfl : s.addTimeCb k' d = s' := Option.some.inj hs
    rcases List.mem_cons.1 ht with rfl | ht
    · exact absurd (List.getElem?_eq_some_iff.1 hk).1 (Nat.lt_irrefl _)
    · simp only [TimerSys.addTimeCb] at hf
      rw [CTimer.addTimeCb_func, if_neg (hi.addTimeCb_ne ht k'), CTimer.delTimeCb_func] at hf
      split at hf
      · cases hf
      · next hne => exact hne (hkey t ht rfl ▸ h t ht hf)
  | delTimeCb k' =>
    obtain rfl : k' = k := hc
    obtain rfl := Option.some.inj hs
    simp only [CTimer.delTimeCb_func] at hf
    split at hf
    · cases hf
    · next hne => exact hne (hkey t ht rfl ▸ h t ht hf)
  | release =>
    obtain rfl := Option.some.inj hs
    cases hf
  | tick m => exact hc.elim
  | fire m => exact hc.elim
  | finish m => exact hc.elim

/-- The callbacks started in a run are of registrations that were armed or did not exist before it. -/
theorem calls_run_armed (hi : Inv s) (h : run step s es = some t) :
    ∃ l, t.calls = s.calls ++ l ∧ ∀ c ∈ l, c.2 < s.keys.length → Armed s c.2 := by
  induction es generalizing s with
  | nil => cases h; exact ⟨[], by simp, by simp⟩
  | cons e es ih =>
    obtain ⟨u, hu, hr⟩ := run_cons.1 h
    obtain ⟨l, hl, hal⟩ := ih (inv_step hi hu) hr
    obtain ⟨ks, hks⟩ := keys_step hu
    have hback : ∀ c ∈ l, c.2 < s.keys.length → Armed s c.2 := fun c hc hlt =>
      armed_of_step hi hu hlt (hal c hc (by rw [hks, List.length_append]; omega))
    rcases calls_step hi hu with hcu | ⟨m, -, ham, hcu⟩
    · exact ⟨l, by rw [hl, hcu], hback⟩
    · refine ⟨(m, m) :: l, by rw [hl, hcu]; simp, ?_⟩
      intro c hc hlt
      rcases List.mem_cons.1 hc with rfl | hc
      · exact ham
      · exact hback c hc hlt

/-- **Cancellation is final** in every run in which no closure that ends clears the entry of another armed
registration. -/
theorem cancel_final (es : List (TimerEv κ)) (h : Along step KeepsEntries new es) : CancelFinal es := by
  rintro es₁ e es₂ k s₁ s₂ rfl hc h₁ h₂
  have hI : Inv s₁ ∧ Indexed s₁ := by
    refine along_inv (I := fun s => Inv s ∧ Indexed s) ?_ ⟨Inv.new, fun u hu => by cases hu⟩
      (along_append h).1 h₁
    exact fun hs hC hstep => ⟨inv_step hs.1 hstep, indexed_step hs.1 hs.2 hC hstep⟩
  obtain ⟨u, hu, hr⟩ := run_cons.1 h₂
  obtain ⟨l, hl, hal⟩ := calls_run_armed (inv_step hI.1 hu) hr
  have hcu : u.calls = s₁.calls := by
    rcases calls_step hI.1 hu with hcu | ⟨m, rfl, -, -⟩
    · exact hcu
    · exact hc.elim
  obtain ⟨ks, hks⟩ := keys_step hu
  refine ⟨l, by rw [hl, hcu], ?_⟩
  intro c hcl hk
  have hlt := (List.getElem?_eq_some_iff.1 hk).1
  exact cancel_disarms hI.1 hI.2 hc hu hk (hal c hcl (by rw [hks, List.length_append]; omega))

/-- A cancelled timer and its successor under the same key, the successor cancelled in turn. -/
theorem cancel_final_readded : CancelFinal (κ := String)
    [.addTimeCb "BoutStart" 1, .tick 1, .fire 0, .finish 0, .addTimeCb "BoutStart" 1, .delTimeCb "BoutStart", .tick 1,
      .fire 1] :=
  cancel_final _ (by decide)

/-- An armed registration can fire once its closure is due. -/
theorem fire_enabled (ha : Armed s n) : ∃ d u, step { s with now := s.now + d } (.fire n) = some u := by
  obtain ⟨t, ht, rfl, -⟩ := ha
  have hfind : (s.pending.find? fun u => u.reg = t.reg ∧ u.due ≤ s.now + t.due).isSome :=
    List.find?_isSome.2 ⟨t, ht, by simp⟩
  obtain ⟨u, hu⟩ := Option.isSome_iff_exists.1 hfind
  exact ⟨t.due, _, by simp only [step, hu, Option.map_some]; rfl⟩

/-- What a closure that ends without `OwnEntry` leaves: an armed registration whose key has no entry. -/
theorem lost_entry (hi : Inv s) (hs : step s e = some s') (hc : ¬ KeepsEntries s e) :
    ∃ n k, s'.keys[n]? = some k ∧ Armed s' n ∧ s'.timer.mKey2Index k = none := by
  have key : ∀ {t : Timeout κ} {r p : List (Timeout κ)}, t ∈ s.held → ¬ OwnEntry s t →
      (∀ u ∈ s.pending, u ≠ t → u ∈ p) → ∃ n k, s.keys[n]? = some k ∧
        Armed { s with running := r, pending := p, timer := s.timer.endTimeCb t.iCb t.sKey } n ∧
        (s.timer.endTimeCb t.iCb t.sKey).mKey2Index k = none := by
    intro t r p ht hown hp
    simp only [OwnEntry, not_forall] at hown
    obtain ⟨u, hu, hne, hix, hf⟩ := hown
    have hut : u ≠ t := fun e => hne (e ▸ rfl)
    have hk : u.sKey = t.sKey := hi.held.index_own (mem_held_of_pending hu) hix
    refine ⟨u.reg, u.sKey, hi.key u (mem_held_of_pending hu), ⟨u, hp u hu hut, rfl, ?_⟩, ?_⟩
    · exact PMap.isSome_update_none.2 ⟨hne, Option.isSome_iff_ne_none.2 hf⟩
    · rw [hk]; simp [CTimer.endTimeCb]
  rcases step_cases hs with ⟨k, d, rfl, rfl⟩ | ⟨k, rfl, rfl⟩ | ⟨rfl, rfl⟩ | ⟨m, rfl, rfl⟩ | ⟨t, ht, rfl, -, rfl⟩ |
    ⟨t, ht, rfl, rfl⟩
  · exact absurd trivial hc
  · exact absurd trivial hc
  · exact absurd trivial hc
  · exact absurd trivial hc
  · simp only [KeepsEntries, not_forall] at hc
    obtain ⟨v, hv, hr, hf, hown⟩ := hc
    obtain rfl := hi.reg_inj (mem_held_of_pending hv) (mem_held_of_pending ht) hr
    rw [start_none hf]
    exact key (mem_held_of_pending ht) hown (fun u hu hne => (List.mem_erase_of_ne hne).2 hu)
  · simp only [KeepsEntries, not_forall] at hc
    obtain ⟨v, hv, hr, hown⟩ := hc
    obtain rfl := hi.reg_inj (mem_held_of_running hv) (mem_held_of_running ht) hr
    exact key (mem_held_of_running ht) hown (fun u hu _ => hu)

/-- The condition of `cancel_final` leaves out nothing else: once a closure has cleared the entry of another armed
registration, a `DelTimeCb` of its key misses that registration and its callback is started. -/
theorem lost_entry_not_final (h : run step new es = some s) (hs : step s e = some s') (hc : ¬ KeepsEntries s e) :
    ∃ fs, ¬ CancelFinal (es ++ e :: fs) := by
  have hi := inv_run h
  obtain ⟨n, k, hk, ha, hix⟩ := lost_entry hi hs hc
  have hi' := inv_step hi hs
  have hdel : s'.timer.delTimeCb k = s'.timer := by unfold CTimer.delTimeCb; rw [hix]
  obtain ⟨d, u, hu⟩ := fire_enabled ha
  have hcalls : u.calls = s'.calls ++ [(n, n)] :=
    fire_armed (s := { s' with now := s'.now + d }) { hi' with } ha hu
  refine ⟨[.delTimeCb k, .tick d, .fire n], ?_⟩
  intro hfin
  have h₁ : run step new (es ++ [e]) = some s' := run_concat.2 ⟨s, h, hs⟩
  have h₂ : run step s' [.delTimeCb k, .tick d, .fire n] = some u := by
    simp only [run, step, hdel, Option.bind_some, ← hu]
    exact Option.bind_fun_some _
  obtain ⟨l, hl, hlk⟩ := hfin (es ++ [e]) (.delTimeCb k) [.tick d, .fire n] k s' u (by simp) rfl h₁ h₂
  obtain rfl : [(n, n)] = l := List.append_cancel_left (hcalls.symm.trans hl)
  exact hlk (n, n) (List.mem_singleton_self _) hk

/-- A timer is cancelled and its key armed anew; the old closure fires in between. The next `DelTimeCb` finds no
entry, and the callback it should cancel runs. -/
theorem cancel_not_final : ¬ CancelFinal (κ := String)
    [.addTimeCb "BoutStart" 1, .delTimeCb "BoutStart", .addTimeCb "BoutStart" 2, .tick 1, .fire 0,
      .delTimeCb "BoutStart", .tick 1, .fire 1] := by
  intro h
  obtain ⟨l, hl, hk⟩ := h [.addTimeCb "BoutStart" 1, .delTimeCb "BoutStart", .addTimeCb "BoutStart" 2, .tick 1,
    .fire 0] (.delTimeCb "BoutStart") [.tick 1, .fire 1] "BoutStart" _ _ rfl rfl rfl rfl
  refine hk (1, 1) ?_ rfl
  rw [← show [(1, 1)] = l from hl]
  exact List.mem_singleton_self _

end TimerSys

end RoundGame.Base
