import RoundGame.Lib.Timers

/-!
# Timers whose callbacks update

In `Timers`, what a callback does is a `Deed`: it enters timers, and may raise. Here it is a `Script`, which can make
updates of its own as well. These call further callbacks while the round that is under way waits, and a callback can go
on after an update that was raised out of.

- `Nested.run`: as `Timers.run`. A callback that is called more than `depth` calls deep raises at once.
- `Clocked`: each round moves the clock on by one, and nothing else moves it. So an update within a callback leaves the
  clock where it is or moves it on (`Updates`), for good.
- `Scripts.plain`: the callbacks as deeds, where an update that makes rounds counts as a raise. An update makes as many
  rounds as it should, and not more, iff it does so with the plain callbacks (`Clocked.update_plain`).
-/

namespace Timers

variable {σ τ κ : Type*}

/-- What a callback does, step by step, an update ending in one of the ways that do not abort. -/
inductive Script (κ : Type*)
  | done
  | raise
  | add (k : κ) (t : Nat) (next : Script κ)
  | update (t : Nat) (next : Exit → Script κ)

/-- What the callback called last does, by the calls up to this one. -/
abbrev Scripts (κ : Type*) := List (Nat × κ) → Script κ

namespace Nested

section

variable (S : Store σ κ)

/-- `up` makes an update, `call` a call. -/
def exec (up : World σ κ → Nat → Exit × World σ κ) : Script κ → World σ κ → Exit × World σ κ
  | .done, w => (.done, w)
  | .raise, w => (.raised, w)
  | .add k t next, w =>
    match addTime S w k t with
    | none => (.aborted, w)
    | some w' => exec up next w'
  | .update t next, w => unlessAborted (up w t) (exec up (next (up w t).1))

def callScript (up : World σ κ → Nat → Exit × World σ κ) (b : Scripts κ) (k : κ) (w : World σ κ) : Exit × World σ κ :=
  let calls := w.calls ++ [(S.now w.store, k)]
  exec S up (b calls) { w with calls := calls }

def callAll (call : κ → World σ κ → Exit × World σ κ) : List κ → World σ κ → Exit × World σ κ
  | [], w => (.done, w)
  | k :: ks, w => onDone (call k w) (callAll call ks)

def rounds (call : κ → World σ κ → Exit × World σ κ) : Nat → World σ κ → Exit × World σ κ
  | 0, w => (.done, w)
  | n + 1, w =>
    match S.shift w.store with
    | none => (.aborted, w)
    | some s =>
      let (due, s') := S.detach s
      onDone (callAll call due ((w.set s).set s')) (rounds call n)

def updateBy (call : κ → World σ κ → Exit × World σ κ) (w : World σ κ) (t : Nat) : Exit × World σ κ :=
  match S.todo w.store t with
  | none => (.aborted, w)
  | some n => rounds S call n w

/-- An update whose callbacks can be called, and can make updates, `depth` calls deep. -/
def update (b : Scripts κ) : Nat → World σ κ → Nat → Exit × World σ κ
  | 0 => updateBy S fun _ w => (.raised, w)
  | depth + 1 => updateBy S (callScript S (update b depth) b)

def call (b : Scripts κ) (depth : Nat) (w : World σ κ) : Call κ → Exit × World σ κ
  | .add k t =>
    match addTime S w k t with
    | none => (.aborted, w)
    | some w' => (.done, w')
  | .update t => update S b depth w t

def run (b : Scripts κ) (depth : Nat) : List (Call κ) → World σ κ → Exit × World σ κ
  | [], w => (.done, w)
  | c :: cs, w => unlessAborted (call S b depth w c) (run b depth cs)

end

end Nested

/-! ## The callbacks as deeds -/

/-- The deed of a callback whose updates are all `still`: one that is not counts as a raise. -/
def Script.deed (still : Nat → Bool) : Script κ → Deed κ
  | .done => ⟨[], false⟩
  | .raise => ⟨[], true⟩
  | .add k t next => { next.deed still with adds := (k, t) :: (next.deed still).adds }
  | .update t next => if still t then (next .done).deed still else ⟨[], true⟩

/-- The time of the last call. -/
def lastTime (calls : List (Nat × κ)) : Nat := (calls.getLast?.map Prod.fst).getD 0

/-- An update to `t` at the time `now` makes `todo now t` rounds; it is still if these are none. -/
def Scripts.plain (todo : Nat → Nat → Option Nat) (b : Scripts κ) : Behaviour κ :=
  fun calls => (b calls).deed fun t => todo (lastTime calls) t = some 0

@[simp] theorem lastTime_concat (calls : List (Nat × κ)) (now : Nat) (k : κ) :
    lastTime (calls ++ [(now, k)]) = now := by
  simp [lastTime]

/-! ## The clock -/

/-- The stores that are `I` stay so, their clocks go on by one with each round, and the rounds of an update depend on
the clock only. -/
structure Clocked (S : Store σ κ) (todo : Nat → Nat → Option Nat) (I : σ → Prop) : Prop where
  add : ∀ {s s' k t}, I s → S.add s k t = some s' → I s' ∧ S.now s' = S.now s
  todo : ∀ {s}, I s → ∀ t, S.todo s t = todo (S.now s) t
  round : ∀ {s s'}, I s → S.shift s = some s' → I (S.detach s').2 ∧ S.now (S.detach s').2 = S.now s + 1

/-- So it is for a store that goes in step with such a store. -/
theorem Clocked.of_bisim {S : Store σ κ} {T : Store τ κ} {R R' : σ → τ → Prop} {todo : Nat → Nat → Option Nat}
    {J : τ → Prop} (hT : Clocked T todo J) (hb : Bisim S T R R') : Clocked S todo fun s => ∃ q, R s q ∧ J q where
  add := by
    rintro s s' k t ⟨q, hr, hq⟩ hs
    rcases rel_cases (hb.add hr k t) with ⟨hnone, -⟩ | ⟨s₁, q₁, hs₁, hq₁, hr₁⟩
    · cases hnone.symm.trans hs
    · obtain rfl := Option.some.inj (hs₁.symm.trans hs)
      obtain ⟨hj, hnow⟩ := hT.add hq hq₁
      exact ⟨⟨q₁, hr₁, hj⟩, by rw [hb.now hr₁, hb.now hr, hnow]⟩
  todo := by
    rintro s ⟨q, hr, hq⟩ t
    rw [hb.todo hr t, hT.todo hq t, hb.now hr]
  round := by
    rintro s s' ⟨q, hr, hq⟩ hs
    rcases rel_cases (hb.shift hr) with ⟨hnone, -⟩ | ⟨s₁, q₁, hs₁, hq₁, hr₁⟩
    · cases hnone.symm.trans hs
    · obtain rfl := Option.some.inj (hs₁.symm.trans hs)
      obtain ⟨hj, hnow⟩ := hT.round hq hq₁
      have hr' := (hb.detach hr₁).2
      exact ⟨⟨_, hr', hj⟩, by rw [hb.now hr', hb.now hr, hnow]⟩

section

variable (S : Store σ κ) (todo : Nat → Nat → Option Nat) (I : σ → Prop)

/-- What does not abort leaves the store `I`, and does not set the clock back. -/
def Grows (f : World σ κ → Exit × World σ κ) : Prop :=
  ∀ w, I w.store → (f w).1 ≠ .aborted → I (f w).2.store ∧ S.now w.store ≤ S.now (f w).2.store

/-- An update does nothing where there are no rounds to make, and moves the clock on where there are. -/
structure Updates (up : World σ κ → Nat → Exit × World σ κ) : Prop where
  grows : ∀ t, Grows S I fun w => up w t
  moves : ∀ w t, I w.store → (up w t).1 ≠ .aborted → todo (S.now w.store) t ≠ some 0 →
    S.now w.store < S.now (up w t).2.store
  still : ∀ w t, I w.store → todo (S.now w.store) t = some 0 → up w t = (.done, w)

end

section

variable {S : Store σ κ} {todo : Nat → Nat → Option Nat} {I : σ → Prop} {f g : World σ κ → Exit × World σ κ}
  {w w' : World σ κ} {n t : Nat}

/-- What goes on after `x`, and does not abort, goes on with `f` or stops at a raise. -/
theorem onDone_ne {x : Exit × World σ κ} (h : (onDone x f).1 ≠ .aborted) :
    x.1 = .done ∧ onDone x f = f x.2 ∨ x.1 = .raised ∧ onDone x f = x := by
  unfold onDone at h ⊢
  cases hx : x.1 with
  | done => exact Or.inl ⟨rfl, rfl⟩
  | raised => exact Or.inr ⟨rfl, rfl⟩
  | aborted =>
    simp only [hx] at h
    exact absurd rfl h

theorem onDone_eq_done {x : Exit × World σ κ} :
    onDone x f = (.done, w') ↔ ∃ w₁, x = (.done, w₁) ∧ f w₁ = (.done, w') := by
  constructor
  · intro h
    rcases onDone_ne (x := x) (f := f) (by rw [h]; simp) with ⟨hx, heq⟩ | ⟨hx, heq⟩
    · exact ⟨x.2, Prod.ext hx rfl, by rw [← heq, h]⟩
    · rw [← heq, h] at hx
      cases hx
  · rintro ⟨w₁, rfl, h⟩
    exact h

theorem Grows.onDone (hf : Grows S I f) (hg : Grows S I g) : Grows S I fun w => onDone (f w) g := by
  intro w hI hx
  rcases onDone_ne hx with ⟨hdone, heq⟩ | ⟨hraised, heq⟩
  · simp only [heq] at hx ⊢
    obtain ⟨hI₁, hle₁⟩ := hf w hI (by rw [hdone]; simp)
    obtain ⟨hI₂, hle₂⟩ := hg _ hI₁ hx
    exact ⟨hI₂, Nat.le_trans hle₁ hle₂⟩
  · simp only [heq]
    exact hf w hI (by rw [hraised]; simp)

theorem unlessAborted_ne {x : Exit × World σ κ} (h : (unlessAborted x f).1 ≠ .aborted) :
    x.1 ≠ .aborted ∧ unlessAborted x f = f x.2 := by
  unfold unlessAborted at h ⊢
  cases hx : x.1 with
  | done => exact ⟨by simp, rfl⟩
  | raised => exact ⟨by simp, rfl⟩
  | aborted =>
    simp only [hx] at h
    exact absurd rfl h

theorem Clocked.addTime (h : Clocked S todo I) (hI : I w.store) {k : κ} (hadd : addTime S w k t = some w') :
    I w'.store ∧ S.now w'.store = S.now w.store := by
  obtain ⟨s, hs, rfl⟩ := Option.map_eq_some_iff.1 hadd
  exact h.add hI hs

/-! ### Callbacks -/

section

variable {up : World σ κ → Nat → Exit × World σ κ} {call : κ → World σ κ → Exit × World σ κ}

theorem Updates.exec (hup : Updates S todo I up) (h : Clocked S todo I) (c : Script κ) :
    Grows S I (Nested.exec S up c) := by
  induction c with
  | done => exact fun w hI _ => ⟨hI, Nat.le_refl _⟩
  | raise => exact fun w hI _ => ⟨hI, Nat.le_refl _⟩
  | add k t next ih =>
    intro w hI hx
    unfold Nested.exec at hx ⊢
    cases hadd : addTime S w k t with
    | none =>
      simp only [hadd] at hx
      exact absurd rfl hx
    | some w₁ =>
      simp only [hadd] at hx ⊢
      obtain ⟨hI₁, hnow⟩ := h.addTime hI hadd
      rw [← hnow]
      exact ih w₁ hI₁ hx
  | update t next ih =>
    intro w hI hx
    unfold Nested.exec at hx ⊢
    obtain ⟨hne, heq⟩ := unlessAborted_ne hx
    rw [heq] at hx ⊢
    obtain ⟨hI₁, hle₁⟩ := hup.grows t w hI hne
    obtain ⟨hI₂, hle₂⟩ := ih _ _ hI₁ hx
    exact ⟨hI₂, Nat.le_trans hle₁ hle₂⟩

theorem Updates.callScript (hup : Updates S todo I up) (h : Clocked S todo I) (b : Scripts κ) (k : κ) :
    Grows S I (Nested.callScript S up b k) :=
  fun w hI hx => hup.exec h _ { w with calls := w.calls ++ [(S.now w.store, k)] } hI hx

theorem grows_callAll (hcall : ∀ k, Grows S I (call k)) (ks : List κ) : Grows S I (Nested.callAll call ks) := by
  induction ks with
  | nil => exact fun w hI _ => ⟨hI, Nat.le_refl _⟩
  | cons k ks ih => exact (hcall k).onDone ih

/-- A round, up to its callbacks. -/
theorem Clocked.set (h : Clocked S todo I) (hI : I w.store) {s : σ} (hs : S.shift w.store = some s) :
    I ((w.set s).set (S.detach s).2).store ∧ S.now ((w.set s).set (S.detach s).2).store = S.now w.store + 1 :=
  h.round hI hs

/-- Rounds move the clock on, by their number at least where all are made. -/
theorem Clocked.rounds (h : Clocked S todo I) (hcall : ∀ k, Grows S I (call k)) (n : Nat) (w : World σ κ)
    (hI : I w.store) (hx : (Nested.rounds S call n w).1 ≠ .aborted) :
    I (Nested.rounds S call n w).2.store ∧ S.now w.store + min n 1 ≤ S.now (Nested.rounds S call n w).2.store ∧
      ((Nested.rounds S call n w).1 = .done → S.now w.store + n ≤ S.now (Nested.rounds S call n w).2.store) := by
  induction n generalizing w with
  | zero => exact ⟨hI, Nat.le_refl _, fun _ => Nat.le_refl _⟩
  | succ n ih =>
    unfold Nested.rounds at hx ⊢
    cases hs : S.shift w.store with
    | none =>
      simp only [hs] at hx
      exact absurd rfl hx
    | some s =>
      simp only [hs] at hx ⊢
      obtain ⟨hI₁, hnow₁⟩ := h.set hI hs
      generalize (w.set s).set (S.detach s).2 = w₁ at hI₁ hnow₁ hx ⊢
      have hgrow := grows_callAll hcall (S.detach s).1 w₁ hI₁
      generalize Nested.callAll call (S.detach s).1 w₁ = x at hgrow hx ⊢
      rcases onDone_ne hx with ⟨hdone, heq⟩ | ⟨hraised, heq⟩
      · rw [heq] at hx ⊢
        obtain ⟨hI₂, hle₂⟩ := hgrow (by rw [hdone]; simp)
        obtain ⟨hI₃, hle₃, hall⟩ := ih _ hI₂ hx
        refine ⟨hI₃, by omega, fun hd => ?_⟩
        have := hall hd
        omega
      · rw [heq]
        obtain ⟨hI₂, hle₂⟩ := hgrow (by rw [hraised]; simp)
        exact ⟨hI₂, by omega, fun hd => absurd (hraised.symm.trans hd) (by simp)⟩

theorem Clocked.updateBy (h : Clocked S todo I) (hcall : ∀ k, Grows S I (call k)) :
    Updates S todo I (Nested.updateBy S call) := by
  refine ⟨fun t w hI hx => ?_, fun w t hI hx hn => ?_, fun w t hI hn => ?_⟩
  all_goals
    have htodo := h.todo hI t
    unfold Nested.updateBy at *
  · cases hn : S.todo w.store t with
    | none =>
      simp only [hn] at hx
      exact absurd rfl hx
    | some n =>
      simp only [hn] at hx ⊢
      obtain ⟨hI', hle, -⟩ := h.rounds hcall n w hI hx
      exact ⟨hI', by omega⟩
  · rw [← htodo] at hn
    cases hn' : S.todo w.store t with
    | none =>
      simp only [hn'] at hx
      exact absurd rfl hx
    | some n =>
      simp only [hn'] at hx ⊢
      have hpos : n ≠ 0 := fun h0 => hn (by rw [hn', h0])
      obtain ⟨-, hle, -⟩ := h.rounds hcall n w hI hx
      omega
  · rw [htodo, hn]
    rfl

end

/-! ### Updates and runs -/

theorem Clocked.update (h : Clocked S todo I) (b : Scripts κ) (depth : Nat) :
    Updates S todo I (Nested.update S b depth) := by
  induction depth with
  | zero => exact h.updateBy fun _ w hI _ => ⟨hI, Nat.le_refl _⟩
  | succ depth ih => exact h.updateBy fun k => ih.callScript h b k

theorem Clocked.call (h : Clocked S todo I) (b : Scripts κ) (depth : Nat) (c : Call κ) :
    Grows S I fun w => Nested.call S b depth w c := by
  cases c with
  | add k t =>
    intro w hI hx
    unfold Nested.call at hx ⊢
    cases hadd : Timers.addTime S w k t with
    | none =>
      simp only [hadd] at hx
      exact absurd rfl hx
    | some w₁ =>
      obtain ⟨hI₁, hnow⟩ := h.addTime hI hadd
      simp only [hadd]
      exact ⟨hI₁, Nat.le_of_eq hnow.symm⟩
  | update t => exact (h.update b depth).grows t

/-- A run that is not aborted leaves the store `I`. -/
theorem Clocked.run (h : Clocked S todo I) (b : Scripts κ) (depth : Nat) (cs : List (Call κ)) :
    Grows S I (Nested.run S b depth cs) := by
  induction cs with
  | nil => exact fun w hI _ => ⟨hI, Nat.le_refl _⟩
  | cons c cs ih =>
    intro w hI hx
    unfold Nested.run at hx ⊢
    obtain ⟨hne, heq⟩ := unlessAborted_ne hx
    rw [heq] at hx ⊢
    obtain ⟨hI₁, hle₁⟩ := h.call b depth c w hI hne
    obtain ⟨hI₂, hle₂⟩ := ih _ hI₁ hx
    exact ⟨hI₂, Nat.le_trans hle₁ hle₂⟩

/-! ## The plain callbacks -/

variable {up : World σ κ → Nat → Exit × World σ κ} {b : Scripts κ}

/-- A callback ends and leaves the clock where it was iff its deed does not raise and its timers can be entered. -/
theorem Updates.exec_iff (hup : Updates S todo I up) (h : Clocked S todo I) (hI : I w.store) (c : Script κ)
    {still : Nat → Bool} (hstill : still = fun t => decide (todo (S.now w.store) t = some 0)) :
    (Nested.exec S up c w = (.done, w') ∧ S.now w'.store = S.now w.store) ↔
      (c.deed still).raises = false ∧ addAll S w (c.deed still).adds = some w' := by
  induction c generalizing w with
  | done =>
    simp only [Nested.exec, Script.deed, addAll, true_and, Prod.mk.injEq, Option.some.injEq]
    exact ⟨fun hw => hw.1, fun hw => ⟨hw, by rw [hw]⟩⟩
  | raise => simp [Nested.exec, Script.deed]
  | add k t next ih =>
    simp only [Nested.exec, Script.deed, addAll]
    cases hadd : addTime S w k t with
    | none => simp
    | some w₁ =>
      obtain ⟨hI₁, hnow⟩ := h.addTime hI hadd
      simp only [Option.bind_some]
      rw [← ih hI₁ (by rw [hnow]; exact hstill), hnow]
  | update t next ih =>
    by_cases ht : todo (S.now w.store) t = some 0
    · have hs : still t = true := by
        rw [hstill]
        exact decide_eq_true ht
      simp only [Nested.exec, Script.deed, hup.still w t hI ht, hs, if_true, unlessAborted]
      exact ih .done hI hstill
    · have hs : ¬ still t = true := by
        rw [hstill]
        simpa using ht
      simp only [Nested.exec, Script.deed, if_neg hs]
      refine iff_of_false ?_ (by simp)
      rintro ⟨hexec, hnow⟩
      -- the clock does not come back
      obtain ⟨hne, heq⟩ := unlessAborted_ne (x := up w t) (f := Nested.exec S up (next (up w t).1))
        (by rw [hexec]; simp)
      have hmove := hup.moves w t hI hne ht
      have hgrow := hup.exec h (next (up w t).1) _ (hup.grows t w hI hne).1
      rw [← heq, hexec] at hgrow
      have := (hgrow (by simp)).2
      simp only at this
      omega

theorem Updates.callAll_iff (hup : Updates S todo I up) (h : Clocked S todo I) (ks : List κ) (hI : I w.store) :
    (Nested.callAll (Nested.callScript S up b) ks w = (.done, w') ∧ S.now w'.store = S.now w.store) ↔
      callAll S (b.plain todo) ks w = (.done, w') := by
  induction ks generalizing w with
  | nil =>
    simp only [Nested.callAll, callAll, Prod.mk.injEq, true_and]
    exact ⟨fun hw => hw.1, fun hw => ⟨hw, by rw [hw]⟩⟩
  | cons k ks ih =>
    let w₀ : World σ κ := { w with calls := w.calls ++ [(S.now w.store, k)] }
    have hdeed : ∀ w₁, (Nested.callScript S up b k w = (.done, w₁) ∧ S.now w₁.store = S.now w.store) ↔
        (b.plain todo w₀.calls).raises = false ∧ addAll S w₀ (b.plain todo w₀.calls).adds = some w₁ := by
      intro w₁
      exact hup.exec_iff h (w := w₀) hI (b w₀.calls) (by simp [w₀])
    have hplain : callAll S (b.plain todo) (k :: ks) w =
        match addAll S w₀ (b.plain todo w₀.calls).adds with
        | none => (.aborted, w₀)
        | some w₁ => if (b.plain todo w₀.calls).raises then (.raised, w₁) else callAll S (b.plain todo) ks w₁ := rfl
    rw [hplain, Nested.callAll]
    constructor
    · rintro ⟨hcall, hnow⟩
      obtain ⟨w₁, hfirst, hrest⟩ := onDone_eq_done.1 hcall
      have hfirst' := hup.callScript h b k w hI (by rw [hfirst]; simp)
      rw [hfirst] at hfirst'
      obtain ⟨hI₁, hle₁⟩ := hfirst'
      have hgrow := grows_callAll (fun k => hup.callScript h b k) ks w₁ hI₁ (by rw [hrest]; simp)
      rw [hrest] at hgrow
      have hsame : S.now w₁.store = S.now w.store := Nat.le_antisymm (hnow ▸ hgrow.2) hle₁
      obtain ⟨hraises, hadds⟩ := (hdeed w₁).1 ⟨hfirst, hsame⟩
      simp only [hadds, hraises, Bool.false_eq_true, if_false]
      exact (ih hI₁).1 ⟨hrest, hnow.trans hsame.symm⟩
    · intro hcall
      cases hadds : addAll S w₀ (b.plain todo w₀.calls).adds with
      | none =>
        simp only [hadds] at hcall
        cases hcall
      | some w₁ =>
        simp only [hadds] at hcall
        cases hraises : (b.plain todo w₀.calls).raises with
        | true =>
          simp only [hraises, if_true] at hcall
          cases hcall
        | false =>
          simp only [hraises, Bool.false_eq_true, if_false] at hcall
          obtain ⟨hexec, hnow₁⟩ := (hdeed w₁).2 ⟨hraises, hadds⟩
          have hI₁ := (hup.callScript h b k w hI (by rw [hexec]; simp)).1
          rw [hexec] at hI₁
          obtain ⟨hrest, hnow⟩ := (ih hI₁).2 hcall
          exact ⟨onDone_eq_done.2 ⟨w₁, hexec, hrest⟩, hnow.trans hnow₁⟩

/-- Rounds are made, and no more by the callbacks, iff the plain callbacks let them be made. -/
theorem Updates.rounds_iff (hup : Updates S todo I up) (h : Clocked S todo I) (n : Nat) (hI : I w.store) :
    (Nested.rounds S (Nested.callScript S up b) n w = (.done, w') ∧ S.now w'.store = S.now w.store + n) ↔
      rounds S (b.plain todo) n w = (.done, w') := by
  induction n generalizing w with
  | zero =>
    simp only [Nested.rounds, rounds, Prod.mk.injEq, true_and]
    exact ⟨fun hw => hw.1, fun hw => ⟨hw, by rw [hw]; rfl⟩⟩
  | succ n ih =>
    unfold Nested.rounds rounds
    cases hs : S.shift w.store with
    | none => simp
    | some s =>
      simp only
      obtain ⟨hI₁, hnow₁⟩ := h.set hI hs
      generalize (w.set s).set (S.detach s).2 = w₁ at hI₁ hnow₁
      constructor
      · rintro ⟨hrounds, hnow⟩
        obtain ⟨w₂, hcalls, hrest⟩ := onDone_eq_done.1 hrounds
        have hgrow := grows_callAll (fun k => hup.callScript h b k) (S.detach s).1 w₁ hI₁ (by rw [hcalls]; simp)
        rw [hcalls] at hgrow
        have hI₂ : I w₂.store := hgrow.1
        have hle₂ : S.now w₁.store ≤ S.now w₂.store := hgrow.2
        have hmade := h.rounds (fun k => hup.callScript h b k) n w₂ hI₂ (by rw [hrest]; simp)
        rw [hrest] at hmade
        have hle : S.now w₂.store + n ≤ S.now w'.store := hmade.2.2 rfl
        have hplain := (hup.callAll_iff h (S.detach s).1 hI₁).1 ⟨hcalls, by omega⟩
        exact onDone_eq_done.2 ⟨w₂, hplain, (ih hI₂).1 ⟨hrest, by omega⟩⟩
      · intro hrounds
        obtain ⟨w₂, hplain, hrest⟩ := onDone_eq_done.1 hrounds
        obtain ⟨hcalls, hnow₂⟩ := (hup.callAll_iff h (S.detach s).1 hI₁).2 hplain
        have hgrow := grows_callAll (fun k => hup.callScript h b k) (S.detach s).1 w₁ hI₁ (by rw [hcalls]; simp)
        rw [hcalls] at hgrow
        have hI₂ : I w₂.store := hgrow.1
        obtain ⟨hrest', hnow⟩ := (ih hI₂).2 hrest
        exact ⟨onDone_eq_done.2 ⟨w₂, hcalls, hrest'⟩, by omega⟩

/-- An update that ends has moved the clock on by its rounds, or further. -/
theorem Clocked.rounds_done (h : Clocked S todo I) (b : Scripts κ) (depth : Nat) (hI : I w.store)
    (hn : S.todo w.store t = some n) (hup : Nested.update S b (depth + 1) w t = (.done, w')) :
    I w'.store ∧ S.now w.store + n ≤ S.now w'.store := by
  have hrounds : Nested.rounds S (Nested.callScript S (Nested.update S b depth) b) n w = (.done, w') := by
    rw [← hup, Nested.update, Nested.updateBy, hn]
  have hmade := h.rounds (fun k => (h.update b depth).callScript h b k) n w hI (by rw [hrounds]; simp)
  rw [hrounds] at hmade
  exact ⟨hmade.1, hmade.2.2 rfl⟩

/-- **An update makes its rounds, and no more,** iff it makes them with the plain callbacks. -/
theorem Clocked.update_plain (h : Clocked S todo I) (b : Scripts κ) (depth : Nat) (hI : I w.store)
    (hn : S.todo w.store t = some n) :
    (Nested.update S b (depth + 1) w t = (.done, w') ∧ S.now w'.store = S.now w.store + n) ↔
      Timers.call S (b.plain todo) w (.update t) = (.done, w') := by
  rw [Nested.update, Nested.updateBy, Timers.call, hn]
  exact (h.update b depth).rounds_iff h n hI

end

end Timers
