import Mathlib.Data.List.Nodup
import RoundGame.World.World

/-!
# The login state machine of the world service

`LoginPlayer` and `KickConnection` messages, and the responses to the `LoadOnlineCtrl` requests not answered yet, in
any order and with any data. Several requests of one player may be open at once; a response is matched by player id.

- `Inv`: a player is online or loading, not both; each object belongs to one player; the objects with a save id are
  those `LoadFinish` ran for, once each, and they are the objects online.
- So no object online is replaced, `LoadFinish` runs once for each of them and for no other object, and a response
  that finds no loading player changes neither table (`world_login_sound`).
-/

namespace RoundGame.World

open Function StepSys Lua

/-- The world, and the players of the `LoadOnlineCtrl` requests not answered yet. -/
structure LoginSys where
  world : WorldState
  requests : List Pid

namespace LoginSys

def init : LoginSys := ⟨WorldState.new, []⟩

/-- `loaded i mData` is the response to the request number `i` of those open. -/
inductive Ev
  | loginPlayer (iPid : Pid) (mRole : MRole)
  | kickConnection (iFd : Fd)
  | loaded (i : Nat) (mData : Val)

def step (env : LoadEnv) (s : LoginSys) : Ev → Option LoginSys
  | .loginPlayer iPid mRole =>
    let r := s.world.loginPlayer iPid mRole
    some ⟨r.1, if r.2 then s.requests ++ [iPid] else s.requests⟩
  | .kickConnection iFd =>
    some { s with world := { s.world with connMgr := s.world.connMgr.delConnectionByFd iFd } }
  | .loaded i mData =>
    match s.requests[i]? with
    | none => none
    | some iPid => some ⟨s.world.loadPlayerCb env iPid mData, s.requests.eraseIdx i⟩

/-! ## The invariant -/

/-- An object some player is online with. -/
def Online (w : WorldState) (o : ObjId) : Prop := ∃ p, w.mOnlinePlayers p = some o

structure Inv (w : WorldState) : Prop where
  apart : ∀ p o, w.mOnlinePlayers p = some o → w.mLoginPlayers p = none
  own : ∀ p o, w.mOnlinePlayers p = some o ∨ w.mLoginPlayers p = some o → (w.objs o).iPid = p ∧ o < w.nextObj
  saved : ∀ o, (w.objs o).iSaveId.isSome ↔ Online w o
  finished : ∀ o, o ∈ w.finished.map Prod.fst ↔ Online w o
  once : (w.finished.map Prod.fst).Nodup
  passed : ∀ x ∈ w.finished, x.2 = true

theorem inv_new : Inv WorldState.new where
  apart _ _ h := by cases h
  own _ _ h := by rcases h with h | h <;> cases h
  saved o := ⟨fun h => (by cases h), fun ⟨_, h⟩ => by cases h⟩
  finished o := ⟨fun h => (by cases h), fun ⟨_, h⟩ => by cases h⟩
  once := List.nodup_nil
  passed _ h := by cases h

namespace Inv

variable {w : WorldState}

/-- The connections are no part of the invariant. -/
theorem connMgr (h : Inv w) (m : CConnectionMgr) : Inv { w with connMgr := m } :=
  ⟨h.apart, h.own, h.saved, h.finished, h.once, h.passed⟩

/-- The object that is created next is nobody's. -/
theorem not_online_next (h : Inv w) : ¬ Online w w.nextObj := fun ⟨p, hp⟩ =>
  absurd (h.own p w.nextObj (Or.inl hp)).2 (Nat.lt_irrefl _)

theorem loginPlayer (h : Inv w) (p : Pid) (r : MRole) : Inv (w.loginPlayer p r).1 := by
  unfold WorldState.loginPlayer
  cases hp : w.mOnlinePlayers p with
  | some o => exact h.connMgr _
  | none =>
    refine ⟨?_, ?_, ?_, h.finished, h.once, h.passed⟩
    · intro q o hq
      have hne : q ≠ p := by
        rintro rfl
        rw [show w.mOnlinePlayers q = some o from hq] at hp
        cases hp
      simp only [WorldState.createPlayer, update_of_ne hne]
      exact h.apart q o hq
    · intro q o hq
      simp only [WorldState.createPlayer] at hq ⊢
      have hold : w.mOnlinePlayers q = some o ∨ w.mLoginPlayers q = some o →
          (update w.objs w.nextObj (CPlayer.new p r) o).iPid = q ∧ o < w.nextObj + 1 := by
        intro hq
        obtain ⟨hpid, hlt⟩ := h.own q o hq
        rw [update_of_ne (Nat.ne_of_lt hlt)]
        exact ⟨hpid, Nat.lt_succ_of_lt hlt⟩
      rcases hq with hq | hq
      · exact hold (Or.inl hq)
      · rcases PMap.update_some_eq_some.1 hq with ⟨rfl, rfl⟩ | ⟨-, hq⟩
        · rw [update_self]
          exact ⟨rfl, Nat.lt_succ_self _⟩
        · exact hold (Or.inr hq)
    · intro o
      by_cases ho : o = w.nextObj
      · subst ho
        refine iff_of_false ?_ h.not_online_next
        simp [WorldState.createPlayer, CPlayer.new]
      · simp only [WorldState.createPlayer, update_of_ne ho]
        exact h.saved o

/-- A loading object is not online. -/
theorem not_online (h : Inv w) {p : Pid} {o : ObjId} (hl : w.mLoginPlayers p = some o) : ¬ Online w o := by
  rintro ⟨q, hq⟩
  have hpq : q = p := (h.own q o (Or.inl hq)).1.symm.trans (h.own p o (Or.inr hl)).1
  subst hpq
  rw [h.apart q o hq] at hl
  cases hl

/-- So it has no save id yet, and `ApplySave` gets past its `assert`. -/
theorem iSaveId (h : Inv w) {p : Pid} {o : ObjId} (hl : w.mLoginPlayers p = some o) : (w.objs o).iSaveId = none :=
  Option.not_isSome_iff_eq_none.1 fun hs => h.not_online hl ((h.saved o).1 hs)

/-- The objects online after an object has come online. -/
theorem online_update {p : Pid} {o : ObjId} (hp : w.mOnlinePlayers p = none) (x : ObjId) :
    (∃ q, update w.mOnlinePlayers p (some o) q = some x) ↔ Online w x ∨ x = o := by
  constructor
  · rintro ⟨q, hq⟩
    rcases PMap.update_some_eq_some.1 hq with ⟨-, rfl⟩ | ⟨-, hq⟩
    · exact Or.inr rfl
    · exact Or.inl ⟨q, hq⟩
  · rintro (⟨q, hq⟩ | rfl)
    · refine ⟨q, PMap.update_some_eq_some.2 (Or.inr ⟨?_, hq⟩)⟩
      rintro rfl
      rw [hp] at hq
      cases hq
    · exact ⟨p, update_self p (some x) w.mOnlinePlayers⟩

/-- A response brings its loading player online, or changes nothing. -/
theorem loadPlayerCb (h : Inv w) (env : LoadEnv) (p : Pid) (mData : Val) : Inv (w.loadPlayerCb env p mData) := by
  by_cases hr : HasRecord mData
  · cases hl : w.mLoginPlayers p with
    | none =>
      rw [WorldState.loadPlayerCb_unchanged (Or.inl hl)]
      exact h
    | some o =>
      have hp : w.mOnlinePlayers p = none := by
        cases hp : w.mOnlinePlayers p with
        | none => rfl
        | some o' =>
          rw [h.apart p o' hp] at hl
          cases hl
      have hnot := h.not_online hl
      rw [WorldState.loadPlayerCb_eq hl hr (h.iSaveId hl)]
      refine ⟨?_, ?_, ?_, ?_, ?_, ?_⟩
      · intro q x hq
        by_cases hqp : q = p
        · subst hqp
          exact update_self _ _ _
        · simp only [update_of_ne hqp] at hq ⊢
          exact h.apart q x hq
      · intro q x hq
        have hold : w.mOnlinePlayers q = some x ∨ w.mLoginPlayers q = some x := by
          rcases hq with hq | hq
          · rcases PMap.update_some_eq_some.1 hq with ⟨rfl, rfl⟩ | ⟨-, hq⟩
            · exact Or.inr hl
            · exact Or.inl hq
          · exact Or.inr (PMap.update_none_eq_some.1 hq).2
        obtain ⟨hpid, hlt⟩ := h.own q x hold
        refine ⟨?_, hlt⟩
        by_cases hx : x = o
        · subst hx
          simp only [update_self]
          exact hpid
        · simp only [update_of_ne hx]
          exact hpid
      · intro x
        refine Iff.trans ?_ (online_update hp x).symm
        by_cases hx : x = o
        · simp [hx]
        · simp [hx, h.saved x]
      · intro x
        refine Iff.trans ?_ (online_update hp x).symm
        simp [← h.finished x]
      · simp only [List.map_append, List.map_cons, List.map_nil]
        refine List.nodup_append.2 ⟨h.once, List.nodup_singleton _, ?_⟩
        rintro a ha b hb rfl
        rw [List.mem_singleton.1 hb] at ha
        exact hnot ((h.finished o).1 ha)
      · intro x hx
        rcases List.mem_append.1 hx with hx | hx
        · exact h.passed x hx
        · rw [List.mem_singleton.1 hx]
  · rw [WorldState.loadPlayerCb_unchanged (Or.inr hr)]
    exact h

end Inv

theorem inv_step {env : LoadEnv} {s t : LoginSys} {e : Ev} (h : Inv s.world) (hs : step env s e = some t) :
    Inv t.world := by
  cases e with
  | loginPlayer p r =>
    obtain rfl := Option.some.inj hs
    exact h.loginPlayer p r
  | kickConnection f =>
    obtain rfl := Option.some.inj hs
    exact h.connMgr _
  | loaded i mData =>
    simp only [step] at hs
    split at hs
    · cases hs
    · next p hi =>
      obtain rfl := Option.some.inj hs
      exact h.loadPlayerCb env p mData

/-! ## What a step does to the tables -/

/-- The objects online before a step are online after it, under the same player. -/
theorem online_step {env : LoadEnv} {s t : LoginSys} {e : Ev} (h : Inv s.world) (hs : step env s e = some t) {p : Pid}
    {o : ObjId} (ho : s.world.mOnlinePlayers p = some o) : t.world.mOnlinePlayers p = some o := by
  cases e with
  | loginPlayer q r =>
    obtain rfl := Option.some.inj hs
    unfold WorldState.loginPlayer
    cases s.world.mOnlinePlayers q with
    | some o' => exact ho
    | none => exact ho
  | kickConnection f =>
    obtain rfl := Option.some.inj hs
    exact ho
  | loaded i mData =>
    simp only [step] at hs
    split at hs
    · cases hs
    · next q hi =>
      obtain rfl := Option.some.inj hs
      cases hl : s.world.mLoginPlayers q with
      | none =>
        rw [WorldState.loadPlayerCb_unchanged (Or.inl hl)]
        exact ho
      | some o' =>
        by_cases hr : HasRecord mData
        · have hne : p ≠ q := by
            rintro rfl
            rw [h.apart p o ho] at hl
            cases hl
          rw [WorldState.online_loadPlayerCb hl hr, update_of_ne hne]
          exact ho
        · rw [WorldState.loadPlayerCb_unchanged (Or.inr hr)]
          exact ho

/-- The login is sound: no player is both online and loading, `LoadFinish` ran once for each object online and for no
other, `ApplySave` always got past its `assert`; no step replaces an object online, and a response that finds no
loading player changes neither table. -/
structure LoginOk (env : LoadEnv) (s : LoginSys) : Prop where
  apart : ∀ p o, s.world.mOnlinePlayers p = some o → s.world.mLoginPlayers p = none
  once : ∀ o, Online s.world o → (s.world.finished.map Prod.fst).count o = 1
  only : ∀ o, o ∈ s.world.finished.map Prod.fst → Online s.world o
  passed : ∀ x ∈ s.world.finished, x.2 = true
  kept : ∀ e t, step env s e = some t → ∀ p o, s.world.mOnlinePlayers p = some o → t.world.mOnlinePlayers p = some o
  idle : ∀ i mData t p, s.requests[i]? = some p → s.world.mLoginPlayers p = none →
    step env s (.loaded i mData) = some t →
      t.world.mOnlinePlayers = s.world.mOnlinePlayers ∧ t.world.mLoginPlayers = s.world.mLoginPlayers

theorem Inv.loginOk {env : LoadEnv} {s : LoginSys} (h : Inv s.world) : LoginOk env s where
  apart := h.apart
  once o ho := List.count_eq_one_of_mem h.once ((h.finished o).2 ho)
  only o ho := (h.finished o).1 ho
  passed := h.passed
  kept _ _ hs _ _ ho := online_step h hs ho
  idle i mData t p hi hl hs := by
    simp only [step, hi] at hs
    obtain rfl := Option.some.inj hs
    rw [WorldState.loadPlayerCb_unchanged (Or.inl hl)]
    exact ⟨rfl, rfl⟩

/-- **The login of the world service is sound** in every state of every run. -/
theorem world_login_sound (env : LoadEnv) (es : List Ev) : Always (step env) (LoginOk env) init es :=
  (always_of_inv (I := fun s : LoginSys => Inv s.world) inv_step inv_new es).imp fun _ => Inv.loginOk

end LoginSys

end RoundGame.World
