import RoundGame.Base.TimerRun

/-!
# Ids and callbacks of every run

Ids are recycled while closures that hold them wait in `skynet`. The invariant keeps the ids of these closures and
of the free list apart, so that the function a closure finds under its id is its own or none, and a registration
whose key is not cancelled before its closure fires is called then (`called_when_fired`). `timer_ids_sound` puts this
together.
-/

namespace RoundGame.Base

open StepSys

namespace TimerSys

variable {κ : Type} [DecidableEq κ] {s t : TimerSys κ} {es : List (TimerEv κ)} {n : Nat}

theorem calls_run (hi : Inv s) (h : run step s es = some t) : ∃ l, t.calls = s.calls ++ l := by
  refine (run_inv (I := fun u => Inv u ∧ ∃ l, u.calls = s.calls ++ l) ?_ ⟨hi, [], by simp⟩ h).2
  rintro u e v ⟨hu, l, hl⟩ hs
  refine ⟨inv_step hu hs, ?_⟩
  rcases calls_step hu hs with hv | ⟨m, -, -, hv⟩
  · exact ⟨l, hv.trans hl⟩
  · exact ⟨l ++ [(m, m)], by rw [hv, hl, List.append_assoc]⟩

/-- An armed registration is still armed after events that neither fire it nor cancel its key. -/
theorem armed_run (hi : Inv s) {k : κ} (hk : s.keys[n]? = some k) (ha : Armed s n)
    (hc : ∀ e ∈ es, ¬ e.Cancels k) (hf : TimerEv.fire n ∉ es) (h : run step s es = some t) : Armed t n := by
  induction es generalizing s with
  | nil => cases h; exact ha
  | cons e es ih =>
    obtain ⟨u, hu, hr⟩ := run_cons.1 h
    have hne : e ≠ .fire n := fun he => hf (he ▸ List.mem_cons_self)
    have hau := armed_step hi hu hk (hc e List.mem_cons_self) hne ha
    obtain ⟨l, hl⟩ := keys_step hu
    have hku : u.keys[n]? = some k := by
      rw [hl, List.getElem?_append_left (List.getElem?_eq_some_iff.1 hk).1]; exact hk
    exact ih (inv_step hi hu) hku hau (fun e he => hc e (List.mem_cons_of_mem _ he))
      (fun he => hf (List.mem_cons_of_mem _ he)) hr

/-- No closure of an earlier registration comes back. -/
theorem pending_of_step {e : TimerEv κ} (hs : step s e = some t) {u : Timeout κ} (hu : u ∈ t.pending)
    (hn : u.reg < s.keys.length) : u ∈ s.pending := by
  rcases step_cases hs with ⟨k, d, -, rfl⟩ | ⟨k, -, rfl⟩ | ⟨-, rfl⟩ | ⟨m, -, rfl⟩ | ⟨v, hv, -, -, rfl⟩ |
    ⟨v, hv, -, rfl⟩
  · rcases List.mem_cons.1 hu with rfl | hu
    · exact absurd hn (Nat.lt_irrefl _)
    · exact hu
  · exact hu
  · exact hu
  · exact hu
  · cases hf : s.timer.mIndex2Func v.iCb with
    | none => rw [start_none hf] at hu; exact List.mem_of_mem_erase hu
    | some f => rw [start_some hf] at hu; exact List.mem_of_mem_erase hu
  · exact hu

/-- A closure is pending no more once it has fired. -/
theorem not_pending_of_fired (h : Inv s) (hs : step s (.fire n) = some t) : ∀ u ∈ t.pending, u.reg ≠ n := by
  obtain ⟨v, hv, rfl⟩ := Option.map_eq_some_iff.1 hs
  have hp := List.find?_some hv
  simp only [decide_eq_true_eq] at hp
  obtain ⟨rfl, -⟩ := hp
  intro u hu
  have hu' : u ∈ s.pending.erase v := by
    cases hf : s.timer.mIndex2Func v.iCb with
    | none => rw [start_none hf] at hu; exact hu
    | some f => rw [start_some hf] at hu; exact hu
  exact (h.erase_reg (List.mem_of_find?_eq_some hv) hu').2

/-- A registration without a pending closure never has one again. -/
theorem not_pending_run (hn : n < s.keys.length) (hp : ∀ u ∈ s.pending, u.reg ≠ n) (h : run step s es = some t) :
    ∀ u ∈ t.pending, u.reg ≠ n := by
  refine (run_inv (I := fun v => n < v.keys.length ∧ ∀ u ∈ v.pending, u.reg ≠ n) ?_ ⟨hn, hp⟩ h).2
  rintro v e w ⟨hv, hvp⟩ hs
  obtain ⟨l, hl⟩ := keys_step hs
  refine ⟨by rw [hl, List.length_append]; omega, ?_⟩
  intro u hu e
  exact hvp u (pending_of_step hs hu (e ▸ hv)) e

theorem not_pending_of_fire_mem (hi : Inv s) (hn : n < s.keys.length) (hm : TimerEv.fire n ∈ es)
    (h : run step s es = some t) : ∀ u ∈ t.pending, u.reg ≠ n := by
  induction es generalizing s with
  | nil => cases hm
  | cons e es ih =>
    obtain ⟨u, hu, hr⟩ := run_cons.1 h
    obtain ⟨l, hl⟩ := keys_step hu
    have hnu : n < u.keys.length := by rw [hl, List.length_append]; omega
    rcases List.mem_cons.1 hm with rfl | hm
    · exact not_pending_run hnu (not_pending_of_fired hi hu) hr
    · exact ih (inv_step hi hu) hnu hm hr

/-- A registration whose key is not cancelled before its closure fires is called then. -/
theorem called_when_fired (hi : Inv s) {k : κ} (hk : s.keys[n]? = some k) (ha : Armed s n)
    (hc : ∀ e ∈ es, ¬ e.Cancels k) (h : run step s es = some t) {u : TimerSys κ}
    (hu : step t (.fire n) = some u) : u.calls = t.calls ++ [(n, n)] := by
  have hit : Inv t := run_inv inv_step hi h
  have hf : TimerEv.fire n ∉ es := by
    intro hm
    obtain ⟨v, hv, -⟩ := Option.map_eq_some_iff.1 hu
    have hp := List.find?_some hv
    simp only [decide_eq_true_eq] at hp
    exact not_pending_of_fire_mem hi (List.getElem?_eq_some_iff.1 hk).1 hm h v (List.mem_of_find?_eq_some hv) hp.1
  exact fire_armed hit (armed_run hi hk ha hc hf h) hu

/-- **Ids and callbacks.** In every run the ids of the closures that have not ended and of the free list are pairwise
distinct and at most the counter; a closure only ever calls its own callback, at most once; and a callback whose key
is not cancelled before its closure fires is called exactly once, when it fires. -/
theorem timer_ids_sound (es : List (TimerEv κ)) (s : TimerSys κ) (h : run step new es = some s) :
    (s.held.map (·.iCb) ++ s.timer.lReuseIndex).Nodup ∧
    (∀ i ∈ s.held.map (·.iCb) ++ s.timer.lReuseIndex, i ≤ s.timer.iDispatchId) ∧
    (∀ c ∈ s.calls, c.2 = c.1) ∧ (s.calls.map Prod.fst).Nodup ∧
    ∀ es₁ k d es₂ es₃ s₁ s₂ s₃, es = es₁ ++ .addTimeCb k d :: (es₂ ++ .fire s₁.keys.length :: es₃) →
      run step new es₁ = some s₁ → run step s₁ (.addTimeCb k d :: es₂) = some s₂ →
      step s₂ (.fire s₁.keys.length) = some s₃ → (∀ e ∈ es₂, ¬ e.Cancels k) →
      s₃.calls = s₂.calls ++ [(s₁.keys.length, s₁.keys.length)] ∧
      (s.calls.map Prod.snd).count s₁.keys.length = 1 := by
  have hinv := inv_run h
  refine ⟨hinv.held.ids, hinv.held.le, fun c hc => (hinv.own c hc).1, hinv.once, ?_⟩
  rintro es₁ k d es₂ es₃ s₁ s₂ s₃ rfl h₁ h₂ h₃ hc
  obtain ⟨sa, hsa, hr₂⟩ := run_cons.1 h₂
  obtain rfl : s₁.addTimeCb k d = sa := Option.some.inj hsa
  have hia := (inv_run h₁).addTimeCb k d
  have hka : (s₁.addTimeCb k d).keys[s₁.keys.length]? = some k := by simp [TimerSys.addTimeCb]
  have hc₃ := called_when_fired hia hka (addTimeCb_armed s₁ k d) hc hr₂ h₃
  refine ⟨hc₃, ?_⟩
  have hr₃ : run step s₃ es₃ = some s := by
    obtain ⟨u, hu, hr⟩ := run_append.1 h
    obtain rfl := Option.some.inj (hu.symm.trans h₁)
    rw [← List.cons_append, run_append] at hr
    obtain ⟨v, hv, hr⟩ := hr
    obtain rfl := Option.some.inj (hv.symm.trans h₂)
    obtain ⟨w, hw, hr⟩ := run_cons.1 hr
    obtain rfl := Option.some.inj (hw.symm.trans h₃)
    exact hr
  obtain ⟨l, hl⟩ := calls_run (inv_step (run_inv inv_step hia hr₂) h₃) hr₃
  have hsnd : s.calls.map Prod.snd = s.calls.map Prod.fst :=
    List.map_congr_left fun c hc => (hinv.own c hc).1
  refine List.count_eq_one_of_mem (hsnd ▸ hinv.once) (List.mem_map.2 ⟨(s₁.keys.length, s₁.keys.length), ?_, rfl⟩)
  rw [hl, hc₃]
  simp

/-- A callback that re-arms its own key: both registrations are called, each once. -/
theorem timer_ids_sound_rearmed : ∃ s, run step (new : TimerSys String)
    [.addTimeCb "BoutStart" 1, .tick 1, .fire 0, .addTimeCb "BoutStart" 1, .finish 0, .tick 1, .fire 1] = some s ∧
      (s.held.map (·.iCb) ++ s.timer.lReuseIndex).Nodup ∧ s.held.map (·.iCb) ++ s.timer.lReuseIndex = [2, 1] ∧
      (s.calls.map Prod.snd).count 1 = 1 := by
  have h := timer_ids_sound (κ := String) [.addTimeCb "BoutStart" 1, .tick 1, .fire 0, .addTimeCb "BoutStart" 1,
    .finish 0, .tick 1, .fire 1] _ rfl
  refine ⟨_, rfl, h.1, rfl, (h.2.2.2.2 [.addTimeCb "BoutStart" 1, .tick 1, .fire 0] "BoutStart" 1
    [.finish 0, .tick 1] [] _ _ _ rfl rfl rfl rfl ?_).2⟩
  simp [TimerEv.Cancels]

end TimerSys

end RoundGame.Base
