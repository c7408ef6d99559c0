import RoundGame.Lib.StepSys
import RoundGame.Base.Timer

/-!
# Runs of a `CTimer`

The state of a run is a `CTimer`, the closures `skynet` still has to run (`pending`) and those whose callback is
running (`running`). A callback may do anything to the timer before it returns or raises, which `safe_call` does
not distinguish, so calls made inside callbacks are the events between a `fire` and its `finish`. The clock is
there for the delays only: a closure fires once it is due, at any later moment.

- `step_cases` says what each event does, and every fact about a step below is read off it;
- `Inv` is the invariant of every step (`inv_step`), so of every run (`inv_run`);
- a registration is armed while its closure is pending and its id has a function. It stays armed until its closure
  fires or its key is cancelled (`armed_step`), no step arms an old one (`armed_of_step`), and only the closure of an
  armed registration starts a callback, its own (`calls_step`, `fire_armed`).
-/

namespace RoundGame.Base

open StepSys

/-- The state of a run. Callbacks are numbered by the calls of `AddTimeCb` that registered them; `keys` lists the
keys of these calls and `calls` the callbacks started, each with the number of the closure that started it. -/
structure TimerSys (κ : Type) where
  timer : CTimer κ Nat
  now : Nat
  pending : List (Timeout κ)
  running : List (Timeout κ)
  keys : List κ
  calls : List (Nat × Nat)

inductive TimerEv (κ : Type)
  | addTimeCb (sKey : κ) (iDelay : Nat)
  | delTimeCb (sKey : κ)
  | release
  /-- The clock moves on. -/
  | tick (n : Nat)
  /-- `skynet` runs the closure of registration `n`. -/
  | fire (n : Nat)
  /-- The callback that the closure of registration `n` has started returns or raises. -/
  | finish (n : Nat)
  deriving DecidableEq

/-- The calls that cancel what has been registered under the key `k`. -/
def TimerEv.Cancels {κ : Type} (k : κ) : TimerEv κ → Prop
  | .addTimeCb sKey _ => sKey = k
  | .delTimeCb sKey => sKey = k
  | .release => True
  | _ => False

namespace TimerSys

section Model

variable {κ : Type}

def new : TimerSys κ := ⟨CTimer.new, 0, [], [], [], []⟩

/-- The closures that have not ended. -/
def held (s : TimerSys κ) : List (Timeout κ) := s.running ++ s.pending

variable [DecidableEq κ]

/-- `AddTimeCb`: the next callback, and `skynet.timeout` with its closure. -/
def addTimeCb (s : TimerSys κ) (sKey : κ) (iDelay : Nat) : TimerSys κ :=
  let a := s.timer.addTimeCb sKey s.keys.length
  { s with
    timer := a.2
    pending := ⟨s.keys.length, a.1, sKey, s.now + iDelay⟩ :: s.pending
    keys := s.keys ++ [sKey] }

/-- The closure `t` starts: it calls the function of its id, or ends at once when there is none. -/
def start (s : TimerSys κ) (t : Timeout κ) : TimerSys κ :=
  match s.timer.mIndex2Func t.iCb with
  | some f =>
    { s with
      pending := s.pending.erase t
      running := t :: s.running
      calls := s.calls ++ [(t.reg, f)] }
  | none => { s with pending := s.pending.erase t, timer := s.timer.endTimeCb t.iCb t.sKey }

/-- The callback of the closure `t` is over. -/
def finish (s : TimerSys κ) (t : Timeout κ) : TimerSys κ :=
  { s with running := s.running.erase t, timer := s.timer.endTimeCb t.iCb t.sKey }

def step (s : TimerSys κ) : TimerEv κ → Option (TimerSys κ)
  | .addTimeCb sKey iDelay => some (s.addTimeCb sKey iDelay)
  | .delTimeCb sKey => some { s with timer := s.timer.delTimeCb sKey }
  | .release => some { s with timer := s.timer.release }
  | .tick n => some { s with now := s.now + n }
  | .fire n => (s.pending.find? fun t => t.reg = n ∧ t.due ≤ s.now).map s.start
  | .finish n => (s.running.find? fun t => t.reg = n).map s.finish

/-- What an event does to the state. -/
theorem step_cases {s s' : TimerSys κ} {e : TimerEv κ} (h : step s e = some s') :
    (∃ k d, e = .addTimeCb k d ∧ s' = s.addTimeCb k d) ∨
    (∃ k, e = .delTimeCb k ∧ s' = { s with timer := s.timer.delTimeCb k }) ∨
    (e = .release ∧ s' = { s with timer := s.timer.release }) ∨
    (∃ n, e = .tick n ∧ s' = { s with now := s.now + n }) ∨
    (∃ t ∈ s.pending, e = .fire t.reg ∧ t.due ≤ s.now ∧ s' = s.start t) ∨
    (∃ t ∈ s.running, e = .finish t.reg ∧ s' = s.finish t) := by
  cases e with
  | addTimeCb k d => exact Or.inl ⟨k, d, rfl, (Option.some.inj h).symm⟩
  | delTimeCb k => exact Or.inr (Or.inl ⟨k, rfl, (Option.some.inj h).symm⟩)
  | release => exact Or.inr (Or.inr (Or.inl ⟨rfl, (Option.some.inj h).symm⟩))
  | tick n => exact Or.inr (Or.inr (Or.inr (Or.inl ⟨n, rfl, (Option.some.inj h).symm⟩)))
  | fire n =>
    obtain ⟨t, hf, rfl⟩ := Option.map_eq_some_iff.1 h
    have hp := List.find?_some hf
    simp only [decide_eq_true_eq] at hp
    obtain ⟨rfl, hd⟩ := hp
    exact Or.inr (Or.inr (Or.inr (Or.inr (Or.inl ⟨t, List.mem_of_find?_eq_some hf, rfl, hd, rfl⟩))))
  | finish n =>
    obtain ⟨t, hf, rfl⟩ := Option.map_eq_some_iff.1 h
    have hp := List.find?_some hf
    simp only [decide_eq_true_eq] at hp
    subst hp
    exact Or.inr (Or.inr (Or.inr (Or.inr (Or.inr ⟨t, List.mem_of_find?_eq_some hf, rfl, rfl⟩))))

end Model

/-! ## The invariant -/

section Invariant

variable {κ : Type} {s : TimerSys κ}

structure Inv (s : TimerSys κ) : Prop where
  held : Held id s.timer s.held
  /-- No registration has two closures. -/
  regs : (s.held.map (·.reg)).Nodup
  /-- A closure has the key of its registration. -/
  key : ∀ t ∈ s.held, s.keys[t.reg]? = some t.sKey
  /-- A call is of the closure's own callback, and of a closure that is no longer pending. -/
  own : ∀ c ∈ s.calls, c.2 = c.1 ∧ c.1 < s.keys.length ∧ ∀ t ∈ s.pending, t.reg ≠ c.1
  /-- No closure makes two calls. -/
  once : (s.calls.map Prod.fst).Nodup

theorem mem_held_of_pending {t : Timeout κ} (h : t ∈ s.pending) : t ∈ s.held :=
  List.mem_append_right _ h

theorem mem_held_of_running {t : Timeout κ} (h : t ∈ s.running) : t ∈ s.held :=
  List.mem_append_left _ h

namespace Inv

theorem reg_lt (h : Inv s) {t : Timeout κ} (ht : t ∈ s.held) : t.reg < s.keys.length :=
  (List.getElem?_eq_some_iff.1 (h.key t ht)).1

theorem reg_inj (h : Inv s) {t u : Timeout κ} (ht : t ∈ s.held) (hu : u ∈ s.held) (e : t.reg = u.reg) : t = u :=
  List.inj_on_of_nodup_map h.regs ht hu e

theorem new : Inv (TimerSys.new : TimerSys κ) :=
  ⟨Held.new, by simp [TimerSys.new, TimerSys.held], by simp [TimerSys.new, TimerSys.held],
    by simp [TimerSys.new], by simp [TimerSys.new]⟩

end Inv

variable [DecidableEq κ]

theorem held_perm_pending {t : Timeout κ} (h : t ∈ s.pending) :
    s.held.Perm (t :: (s.running ++ s.pending.erase t)) :=
  ((List.perm_cons_erase h).append_left _).trans List.perm_middle

theorem held_perm_running {t : Timeout κ} (h : t ∈ s.running) :
    s.held.Perm (t :: (s.running.erase t ++ s.pending)) :=
  (List.perm_cons_erase h).append_right _

theorem held_addTimeCb (s : TimerSys κ) (k : κ) (d : Nat) : (s.addTimeCb k d).held.Perm
    (⟨s.keys.length, (s.timer.addTimeCb k s.keys.length).1, k, s.now + d⟩ :: s.held) :=
  List.perm_middle

namespace Inv

/-- The rest of a pending closure's list has no closure of its registration. -/
theorem erase_reg (h : Inv s) {t u : Timeout κ} (ht : t ∈ s.pending) (hu : u ∈ s.pending.erase t) :
    u ∈ s.pending ∧ u.reg ≠ t.reg := by
  have hup := List.mem_of_mem_erase hu
  refine ⟨hup, ?_⟩
  intro e
  have hn : (t :: (s.running ++ s.pending.erase t)).Nodup :=
    ((held_perm_pending ht).map (·.reg) |>.nodup_iff.1 h.regs).of_map
  obtain rfl := h.reg_inj (mem_held_of_pending hup) (mem_held_of_pending ht) e
  exact (List.nodup_cons.1 hn).1 (List.mem_append_right _ hu)

theorem addTimeCb (h : Inv s) (k : κ) (d : Nat) : Inv (s.addTimeCb k d) where
  held := (h.held.addTimeCb k s.keys.length (s.now + d)).perm (held_addTimeCb s k d).symm
  regs := by
    refine ((held_addTimeCb s k d).map _).nodup_iff.2 (List.nodup_cons.2 ⟨?_, h.regs⟩)
    intro hm
    obtain ⟨t, ht, e⟩ := List.mem_map.1 hm
    exact absurd (h.reg_lt ht) (by simp [e])
  key := by
    intro t ht
    rcases List.mem_cons.1 ((held_addTimeCb s k d).mem_iff.1 ht) with rfl | ht
    · simp [TimerSys.addTimeCb]
    · simp only [TimerSys.addTimeCb]
      rw [List.getElem?_append_left (h.reg_lt ht)]
      exact h.key t ht
  own := by
    intro c hc
    obtain ⟨h1, h2, h3⟩ := h.own c hc
    refine ⟨h1, by simp [TimerSys.addTimeCb]; omega, ?_⟩
    intro t ht
    rcases List.mem_cons.1 ht with rfl | ht
    · exact Nat.ne_of_gt h2
    · exact h3 t ht
  once := h.once

/-- A closure that ends, pending or running. -/
theorem ended (h : Inv s) {t : Timeout κ} {r p : List (Timeout κ)} (hp : s.held.Perm (t :: (r ++ p)))
    (hsub : ∀ u ∈ p, u ∈ s.pending) :
    Inv { s with running := r, pending := p, timer := s.timer.endTimeCb t.iCb t.sKey } where
  held := (h.held.perm hp).endTimeCb
  regs := (List.nodup_cons.1 ((hp.map (·.reg)).nodup_iff.1 h.regs)).2
  key := fun u hu => h.key u (hp.mem_iff.2 (List.mem_cons_of_mem _ hu))
  own := fun c hc => ⟨(h.own c hc).1, (h.own c hc).2.1, fun u hu => (h.own c hc).2.2 u (hsub u hu)⟩
  once := h.once

theorem start (h : Inv s) {t : Timeout κ} (ht : t ∈ s.pending) : Inv (s.start t) := by
  unfold TimerSys.start
  cases hf : s.timer.mIndex2Func t.iCb with
  | none => exact h.ended (held_perm_pending ht) (fun u hu => List.mem_of_mem_erase hu)
  | some f =>
    have hp : s.held.Perm (t :: s.running ++ s.pending.erase t) := held_perm_pending ht
    obtain rfl : f = t.reg := h.held.func_own (mem_held_of_pending ht) hf
    refine ⟨h.held.perm hp, (hp.map _).nodup_iff.1 h.regs, fun u hu => h.key u (hp.mem_iff.2 hu), ?_, ?_⟩
    · intro c hc
      rcases List.mem_append.1 hc with hc | hc
      · obtain ⟨h1, h2, h3⟩ := h.own c hc
        exact ⟨h1, h2, fun u hu => h3 u (List.mem_of_mem_erase hu)⟩
      · obtain rfl := List.mem_singleton.1 hc
        exact ⟨rfl, h.reg_lt (mem_held_of_pending ht), fun u hu => (h.erase_reg ht hu).2⟩
    · rw [List.map_append, List.nodup_append]
      refine ⟨h.once, by simp, ?_⟩
      rintro n hn m hm rfl
      obtain ⟨c, hc, rfl⟩ := List.mem_map.1 hn
      simp only [List.map_cons, List.map_nil, List.mem_singleton] at hm
      exact (h.own c hc).2.2 t ht hm.symm

end Inv

theorem inv_step {s s' : TimerSys κ} {e : TimerEv κ} (h : Inv s) (hs : step s e = some s') : Inv s' := by
  rcases step_cases hs with ⟨k, d, -, rfl⟩ | ⟨k, -, rfl⟩ | ⟨-, rfl⟩ | ⟨n, -, rfl⟩ | ⟨t, ht, -, -, rfl⟩ |
    ⟨t, ht, -, rfl⟩
  · exact h.addTimeCb k d
  · exact { h with held := h.held.delTimeCb k }
  · exact { h with held := h.held.release }
  · exact { h with }
  · exact h.start ht
  · exact h.ended (held_perm_running ht) (fun _ hu => hu)

theorem inv_run {s : TimerSys κ} {es : List (TimerEv κ)} (h : run step new es = some s) : Inv s :=
  run_inv inv_step Inv.new h

end Invariant

/-! ## Armed registrations -/

section Armed

variable {κ : Type}

/-- The registration `n` is armed: its closure is pending and its id has a function. -/
def Armed (s : TimerSys κ) (n : Nat) : Prop :=
  ∃ t ∈ s.pending, t.reg = n ∧ (s.timer.mIndex2Func t.iCb).isSome

/-- Every armed registration is the entry of its key. -/
def Indexed (s : TimerSys κ) : Prop :=
  ∀ t ∈ s.pending, (s.timer.mIndex2Func t.iCb).isSome → s.timer.mKey2Index t.sKey = some t.iCb

variable [DecidableEq κ] {s s' : TimerSys κ} {e : TimerEv κ} {n : Nat}

theorem start_some {t : Timeout κ} {f : Nat} (hf : s.timer.mIndex2Func t.iCb = some f) :
    s.start t = { s with
      pending := s.pending.erase t
      running := t :: s.running
      calls := s.calls ++ [(t.reg, f)] } := by
  unfold start; rw [hf]

theorem start_none {t : Timeout κ} (hf : s.timer.mIndex2Func t.iCb = none) :
    s.start t = { s with pending := s.pending.erase t, timer := s.timer.endTimeCb t.iCb t.sKey } := by
  unfold start; rw [hf]

omit [DecidableEq κ] in
theorem Inv.not_running (h : Inv s) {t u : Timeout κ} (ht : t ∈ s.pending) (hu : u ∈ s.running) :
    t.iCb ≠ u.iCb := by
  intro e
  obtain rfl := h.held.iCb_inj (mem_held_of_pending ht) (mem_held_of_running hu) e
  have hn := h.regs
  rw [TimerSys.held, List.map_append] at hn
  exact (List.nodup_append.1 hn).2.2 _ (List.mem_map_of_mem hu) _ (List.mem_map_of_mem ht) rfl

/-- The new id of `AddTimeCb` is that of no other pending closure. -/
theorem Inv.addTimeCb_ne (h : Inv s) {t : Timeout κ} (ht : t ∈ s.pending) (k : κ) :
    t.iCb ≠ (s.timer.addTimeCb k s.keys.length).1 := fun e =>
  h.held.addTimeCb_fresh k s.keys.length
    (e ▸ List.mem_append_left _ (List.mem_map_of_mem (mem_held_of_pending ht)))

/-- No step arms a registration that exists already. -/
theorem armed_of_step (h : Inv s) (hs : step s e = some s') (hn : n < s.keys.length) (ha : Armed s' n) :
    Armed s n := by
  obtain ⟨t, ht, rfl, hf⟩ := ha
  rcases step_cases hs with ⟨k, d, -, rfl⟩ | ⟨k, -, rfl⟩ | ⟨-, rfl⟩ | ⟨m, -, rfl⟩ | ⟨u, hu, -, -, rfl⟩ |
    ⟨u, hu, -, rfl⟩
  · rcases List.mem_cons.1 ht with rfl | ht
    · exact absurd hn (Nat.lt_irrefl _)
    · simp only [TimerSys.addTimeCb] at hf
      rw [CTimer.addTimeCb_func, if_neg (h.addTimeCb_ne ht k), CTimer.delTimeCb_func] at hf
      split at hf
      · cases hf
      · exact ⟨t, ht, rfl, hf⟩
  · simp only [CTimer.delTimeCb_func] at hf
    split at hf
    · cases hf
    · exact ⟨t, ht, rfl, hf⟩
  · cases hf
  · exact ⟨t, ht, rfl, hf⟩
  · cases hu' : s.timer.mIndex2Func u.iCb with
    | some f =>
      rw [start_some hu'] at ht hf
      exact ⟨t, List.mem_of_mem_erase ht, rfl, hf⟩
    | none =>
      rw [start_none hu'] at ht hf
      exact ⟨t, List.mem_of_mem_erase ht, rfl, (PMap.isSome_update_none.1 hf).2⟩
  · exact ⟨t, ht, rfl, (PMap.isSome_update_none.1 hf).2⟩

/-- An armed registration stays armed until its closure fires or its key is cancelled. -/
theorem armed_step (h : Inv s) (hs : step s e = some s') {k : κ} (hk : s.keys[n]? = some k) (hc : ¬ e.Cancels k)
    (hf : e ≠ .fire n) (ha : Armed s n) : Armed s' n := by
  obtain ⟨t, ht, rfl, ht'⟩ := ha
  have hkey : t.sKey = k := Option.some.inj ((h.key t (mem_held_of_pending ht)).symm.trans hk)
  have hindex : ∀ k', k' ≠ k → s.timer.mKey2Index k' ≠ some t.iCb := fun k' hne hk' =>
    hne ((h.held.index_own (mem_held_of_pending ht) hk').symm.trans hkey)
  rcases step_cases hs with ⟨k', d, rfl, rfl⟩ | ⟨k', rfl, rfl⟩ | ⟨rfl, -⟩ | ⟨m, -, rfl⟩ | ⟨u, hu, rfl, -, rfl⟩ |
    ⟨u, hu, -, rfl⟩
  · refine ⟨t, List.mem_cons_of_mem _ ht, rfl, ?_⟩
    simp only [TimerSys.addTimeCb]
    rw [CTimer.addTimeCb_func, if_neg (h.addTimeCb_ne ht k'), CTimer.delTimeCb_func, if_neg (hindex k' hc)]
    exact ht'
  · refine ⟨t, ht, rfl, ?_⟩
    simp only [CTimer.delTimeCb_func, if_neg (hindex k' hc)]
    exact ht'
  · exact absurd trivial hc
  · exact ⟨t, ht, rfl, ht'⟩
  · have htu : t ≠ u := by rintro rfl; exact hf rfl
    have hmem : t ∈ s.pending.erase u := (List.mem_erase_of_ne htu).2 ht
    cases hu' : s.timer.mIndex2Func u.iCb with
    | some f => rw [start_some hu']; exact ⟨t, hmem, rfl, ht'⟩
    | none =>
      rw [start_none hu']
      refine ⟨t, hmem, rfl, PMap.isSome_update_none.2 ⟨fun e => htu ?_, ht'⟩⟩
      exact h.held.iCb_inj (mem_held_of_pending ht) (mem_held_of_pending hu) e
  · exact ⟨t, ht, rfl, PMap.isSome_update_none.2 ⟨h.not_running ht hu, ht'⟩⟩

/-- Only the closure of an armed registration starts a callback, its own. -/
theorem calls_step (h : Inv s) (hs : step s e = some s') :
    s'.calls = s.calls ∨ ∃ n, e = .fire n ∧ Armed s n ∧ s'.calls = s.calls ++ [(n, n)] := by
  rcases step_cases hs with ⟨k, d, -, rfl⟩ | ⟨k, -, rfl⟩ | ⟨-, rfl⟩ | ⟨m, -, rfl⟩ | ⟨t, ht, rfl, -, rfl⟩ |
    ⟨t, ht, -, rfl⟩
  · exact Or.inl rfl
  · exact Or.inl rfl
  · exact Or.inl rfl
  · exact Or.inl rfl
  · cases hf : s.timer.mIndex2Func t.iCb with
    | none => rw [start_none hf]; exact Or.inl rfl
    | some f =>
      obtain rfl : f = t.reg := h.held.func_own (mem_held_of_pending ht) hf
      rw [start_some hf]
      exact Or.inr ⟨t.reg, rfl, ⟨t, ht, rfl, by rw [hf]; rfl⟩, rfl⟩
  · exact Or.inl rfl

theorem fire_armed (h : Inv s) (ha : Armed s n) (hs : step s (.fire n) = some s') :
    s'.calls = s.calls ++ [(n, n)] := by
  obtain ⟨t, ht, rfl, hf⟩ := ha
  obtain ⟨u, hu, rfl⟩ := Option.map_eq_some_iff.1 hs
  have hp := List.find?_some hu
  simp only [decide_eq_true_eq] at hp
  obtain rfl := h.reg_inj (mem_held_of_pending (List.mem_of_find?_eq_some hu)) (mem_held_of_pending ht) hp.1
  obtain ⟨f, hf⟩ := Option.isSome_iff_exists.1 hf
  obtain rfl : f = u.reg := h.held.func_own (mem_held_of_pending ht) hf
  rw [start_some hf]

theorem keys_step (hs : step s e = some s') : ∃ l, s'.keys = s.keys ++ l := by
  rcases step_cases hs with ⟨k, d, -, rfl⟩ | ⟨k, -, rfl⟩ | ⟨-, rfl⟩ | ⟨m, -, rfl⟩ | ⟨t, ht, -, -, rfl⟩ |
    ⟨t, ht, -, rfl⟩
  · exact ⟨[k], rfl⟩
  · exact ⟨[], (List.append_nil _).symm⟩
  · exact ⟨[], (List.append_nil _).symm⟩
  · exact ⟨[], (List.append_nil _).symm⟩
  · refine ⟨[], ?_⟩
    cases hf : s.timer.mIndex2Func t.iCb with
    | none => rw [start_none hf]; simp
    | some f => rw [start_some hf]; simp
  · exact ⟨[], (List.append_nil _).symm⟩

/-- `AddTimeCb` arms its registration. -/
theorem addTimeCb_armed (s : TimerSys κ) (k : κ) (d : Nat) : Armed (s.addTimeCb k d) s.keys.length :=
  ⟨_, List.mem_cons_self, rfl, by simp [TimerSys.addTimeCb, CTimer.addTimeCb_func]⟩

end Armed

end TimerSys

end RoundGame.Base
