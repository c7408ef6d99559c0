import RoundGame.War.CWar

/-!
# How a round goes on

`BoutProcess` deletes the timers of the war, plays the round under `safe_call`, and arms `WarEnd` or `BoutStart`, with
the animation time as the delay. What the three protected calls do to the war is a parameter (`RoundCode`), an error in
the middle of them included.

The decision is right, with one of the two timers armed, iff (`Continues`, `boutProcess_decides_iff`):

- the two timers that were armed before are found by `DelTimeCb`;
- no warrior of a player is there, to whom the broadcast would be sent, there is a bout limit, and some animation time;
- no camp is beaten, or the limit is reached and `math.random` does not contradict the survivor. The test for a beaten
  camp is `GetAliveCount() < 0`, so that it takes the limit to end the war.
-/

namespace RoundGame.War

open Lua Base

/-- The functions that `BoutProcess` calls under `safe_call`. None of the code they lead to uses the timers of the
war. -/
structure RoundCode where
  newBout : LuaM CWar PUnit
  boutExecute : LuaM CWar PUnit
  boutEnd : LuaM CWar PUnit

namespace CWar

def aliveCount1 (w : CWar) : Nat := w.getAliveCount w.lCamp1

def aliveCount2 (w : CWar) : Nat := w.getAliveCount w.lCamp2

/-- `GetBout() >= m_iBoutOut`. -/
def limitReached (w : CWar) : Bool := w.iBoutOut.any fun iBoutOut => iBoutOut ≤ w.iBout

/-- What the war goes on with: the timer that is armed, and the result. -/
def Decision (w : CWar) (sKey : String) : Prop :=
  if w.aliveCount1 = 0 ∧ w.aliveCount2 ≠ 0 then sKey = "WarEnd" ∧ w.iWarResult = some 2
  else if w.aliveCount2 = 0 ∧ w.aliveCount1 ≠ 0 then sKey = "WarEnd" ∧ w.iWarResult = some 1
  else if w.aliveCount1 = 0 ∧ w.aliveCount2 = 0 ∨ w.limitReached then
    sKey = "WarEnd" ∧ (w.iWarResult = some 1 ∨ w.iWarResult = some 2)
  else sKey = "BoutStart"

/-- A warrior of a player is there. -/
def playerThere (w : CWar) : Bool := w.mPid2Wid.any fun p => (w.mWarriors p.2).any CWarrior.isPlayer

/-- The war can go on as it should, when the round leaves it like this. -/
structure Continues (env : WarEnv) (w : CWar) : Prop where
  silent : w.playerThere = false
  animated : 0 < w.iAnimationTime
  limited : w.iBoutOut.isSome
  decided : 0 < w.aliveCount1 ∧ 0 < w.aliveCount2 ∨ w.limitReached ∧
    (w.aliveCount1 = 0 ∧ w.aliveCount2 = 0 ∨ w.aliveCount1 = 0 ∧ env.random 1 2 = 2 ∨
      w.aliveCount2 = 0 ∧ env.random 1 2 = 1)

end CWar

/-- The war after the protected calls. -/
def RoundCode.after (code : RoundCode) (w : CWar) : CWar :=
  let w := safeCall code.boutExecute (safeCall code.newBout { w with iWarStatus := some .animation })
  if 0 < w.aliveCount1 ∧ 0 < w.aliveCount2 then safeCall code.boutEnd w else w

namespace WarSys

def warKeys : List String := ["BoutStart", "BoutEnd", "BoutProcess", "CheckAutoPerform", "WarEnd"]

/-- `BoutProcess`, with the code of the round. -/
def boutProcessOf (env : WarEnv) (code : RoundCode) : LuaM WarSys PUnit := do
  delTimeCbs
  onWar fun w => { w with iWarStatus := some .animation }
  onWar (safeCall code.newBout)
  onWar (safeCall code.boutExecute)
  let w := (← get).war
  if 0 < w.aliveCount1 ∧ 0 < w.aliveCount2 then onWar (safeCall code.boutEnd)
  boutFinish env

/-- The timers of which one must be armed. -/
def nextKeys : List String := ["WarEnd", "BoutStart"]

/-- The code returns with one of the two timers armed, the right one. -/
def Decides (x : LuaM WarSys PUnit) (s : WarSys) : Prop :=
  (x.exec s).1 = .ok ⟨⟩ ∧ ∃ t, (x.exec s).2.timer.armedUnder nextKeys = [t] ∧ (x.exec s).2.war.Decision t.sKey

/-! ## What the calls do -/

section Exec

variable {s : WarSys}

theorem exec_delTimeCbs : delTimeCbs.exec s = (.ok ⟨⟩, { s with timer := s.timer.delAll warKeys }) := rfl

theorem exec_get_bind {α : Type} (g : WarSys → LuaM WarSys α) : (get >>= g).exec s = (g s).exec s := rfl

theorem exec_onWar_bind {α : Type} (u : CWar → CWar) (g : PUnit → LuaM WarSys α) :
    (onWar u >>= g).exec s = (g ⟨⟩).exec { s with war := u s.war } := rfl

theorem exec_addTimeCb (sKey : String) {iDelay : Int} (h : 0 < iDelay) : (addTimeCb sKey iDelay).exec s =
    (.ok ⟨⟩, { s with timer := s.timer.addTimeCb sKey iDelay.toNat }) := by
  unfold addTimeCb
  rw [if_neg (Int.not_le.2 h)]
  rfl

theorem exec_addTimeCb_zero (sKey : String) {iDelay : Int} (h : iDelay ≤ 0) :
    ∃ e, ((addTimeCb sKey iDelay).exec s).1 = .error e := by
  unfold addTimeCb
  rw [if_pos h]
  exact ⟨_, rfl⟩

theorem exec_boutProcessOf (env : WarEnv) (code : RoundCode) : (boutProcessOf env code).exec s =
    (boutFinish env).exec { s with war := code.after s.war, timer := s.timer.delAll warKeys } := by
  unfold boutProcessOf RoundCode.after
  rw [LuaM.exec_bind, exec_delTimeCbs]
  dsimp only
  rw [exec_onWar_bind, exec_onWar_bind, exec_onWar_bind, exec_get_bind]
  dsimp only
  split
  · rw [exec_onWar_bind]
  · rfl

/-- The broadcast raises iff a warrior of a player is there. -/
theorem exec_broadCast : broadCast.exec s =
    (if s.war.playerThere then .error "attempt to index a nil value (global 'net')" else .ok ⟨⟩, s) := by
  refine LuaM.exec_forM (fun p => ?_) s.war.mPid2Wid
  cases s.war.mWarriors p.2 with
  | none => rfl
  | some oWarrior =>
    show (if oWarrior.isPlayer = true then _ else _ : LuaM WarSys PUnit).exec s =
      (if oWarrior.isPlayer = true then _ else _, s)
    split <;> rfl

/-- `BoutProcess` after the broadcast: the tests for a beaten camp are never true. -/
theorem exec_boutFinish (env : WarEnv) (h : s.war.playerThere = false) {iBoutOut : Nat}
    (hout : s.war.iBoutOut = some iBoutOut) : (boutFinish env).exec s =
      if s.war.limitReached then
        (addTimeCb "WarEnd" s.war.iAnimationTime).exec
          { s with war := { s.war with iWarResult := some (env.random 1 2) } }
      else (addTimeCb "BoutStart" s.war.iAnimationTime).exec s := by
  unfold boutFinish CWar.limitReached
  rw [LuaM.exec_bind, exec_broadCast, h, if_neg Bool.false_ne_true]
  dsimp only
  rw [exec_get_bind]
  rw [if_neg (Nat.not_lt_zero _), if_neg (Nat.not_lt_zero _), hout]
  dsimp only [Option.any]
  by_cases hle : iBoutOut ≤ s.war.iBout
  · rw [if_pos hle, if_pos (decide_eq_true hle), exec_onWar_bind, hout]
  · rw [if_neg hle, if_neg (by rwa [decide_eq_true_iff])]

theorem boutFinish_raises (env : WarEnv) (h : s.war.playerThere = true ∨ s.war.iBoutOut = none) :
    ∃ e, ((boutFinish env).exec s).1 = .error e := by
  unfold boutFinish
  rw [LuaM.exec_bind, exec_broadCast]
  cases hp : s.war.playerThere with
  | true => exact ⟨_, rfl⟩
  | false =>
    rw [if_neg Bool.false_ne_true]
    dsimp only
    rw [exec_get_bind]
    rw [if_neg (Nat.not_lt_zero _), if_neg (Nat.not_lt_zero _), h.resolve_left (hp ▸ Bool.false_ne_true)]
    exact ⟨_, rfl⟩

end Exec

/-! ## The decision -/

section Decision

variable {w : CWar}

theorem decision_limit (h : w.limitReached = true) {r : Nat} (hr : r = 1 ∨ r = 2) :
    ({ w with iWarResult := some r } : CWar).Decision "WarEnd" ↔ 0 < w.aliveCount1 ∧ 0 < w.aliveCount2 ∨
      (w.aliveCount1 = 0 ∧ w.aliveCount2 = 0 ∨ w.aliveCount1 = 0 ∧ r = 2 ∨ w.aliveCount2 = 0 ∧ r = 1) := by
  have hsome : ({ w with iWarResult := some r } : CWar).limitReached = true := h
  unfold CWar.Decision
  rw [hsome]
  show (if w.aliveCount1 = 0 ∧ w.aliveCount2 ≠ 0 then "WarEnd" = "WarEnd" ∧ some r = some 2
    else if w.aliveCount2 = 0 ∧ w.aliveCount1 ≠ 0 then "WarEnd" = "WarEnd" ∧ some r = some 1
    else if w.aliveCount1 = 0 ∧ w.aliveCount2 = 0 ∨ true = true then
      "WarEnd" = "WarEnd" ∧ (some r = some 1 ∨ some r = some 2)
    else "WarEnd" = "BoutStart") ↔ _
  rcases Nat.eq_zero_or_pos w.aliveCount1 with h1 | h1 <;> rcases Nat.eq_zero_or_pos w.aliveCount2 with h2 | h2
  · simp [h1, h2, hr]
  · simp [h1, Nat.ne_of_gt h2]
  · simp [h2, Nat.ne_of_gt h1]
  · simp [h1, h2, Nat.ne_of_gt h1, Nat.ne_of_gt h2, hr]

theorem decision_next (h : w.limitReached = false) :
    w.Decision "BoutStart" ↔ 0 < w.aliveCount1 ∧ 0 < w.aliveCount2 := by
  unfold CWar.Decision
  rw [h]
  rcases Nat.eq_zero_or_pos w.aliveCount1 with h1 | h1 <;> rcases Nat.eq_zero_or_pos w.aliveCount2 with h2 | h2
  · simp [h1, h2]
  · simp [h1, Nat.ne_of_gt h2]
  · simp [h2, Nat.ne_of_gt h1]
  · simp [h1, h2, Nat.ne_of_gt h1, Nat.ne_of_gt h2]

theorem cons_eq_singleton_iff {t : Timeout String} {l : List (Timeout String)} {P : String → Prop} :
    (∃ u, t :: l = [u] ∧ P u.sKey) ↔ l = [] ∧ P t.sKey := by
  constructor
  · rintro ⟨u, hu, hP⟩
    cases hu
    exact ⟨rfl, hP⟩
  · rintro ⟨rfl, hP⟩
    exact ⟨t, rfl, hP⟩

end Decision

section Process

variable {env : WarEnv} {s : WarSys}

theorem nextKeys_subset : nextKeys ⊆ warKeys := by
  intro k hk
  rcases List.mem_pair.1 hk with rfl | rfl
  · decide
  · decide

theorem decides_congr {x y : LuaM WarSys PUnit} {t : WarSys} (h : x.exec s = y.exec t) :
    Decides x s ↔ Decides y t := by
  unfold Decides
  rw [h]

/-- A timer is armed after the animation time. -/
theorem arms_iff {sKey : String} (hi : s.timer.Inv) (hc : s.timer.Cleared sKey) (hkey : sKey ∈ nextKeys) :
    Decides (addTimeCb sKey s.war.iAnimationTime) s ↔
      0 < s.war.iAnimationTime ∧ s.timer.armedUnder nextKeys = [] ∧ s.war.Decision sKey := by
  unfold Decides
  by_cases hpos : 0 < s.war.iAnimationTime
  · rw [exec_addTimeCb sKey hpos]
    dsimp only
    rw [TimerSys.armedUnder_addTimeCb hi hc hkey, cons_eq_singleton_iff]
    exact ⟨fun h => ⟨hpos, h.2⟩, fun h => ⟨rfl, h.2⟩⟩
  · obtain ⟨e, he⟩ := exec_addTimeCb_zero (s := s) sKey (Int.not_lt.1 hpos)
    rw [he]
    exact iff_of_false (fun h => nomatch h.1) fun h => hpos h.1

theorem boutFinish_decides_iff (hi : s.timer.Inv) (hc : ∀ k ∈ nextKeys, s.timer.Cleared k)
    (hr : env.random 1 2 = 1 ∨ env.random 1 2 = 2) :
    Decides (boutFinish env) s ↔ s.timer.armedUnder nextKeys = [] ∧ s.war.Continues env := by
  by_cases hraise : s.war.playerThere = true ∨ s.war.iBoutOut = none
  · obtain ⟨e, he⟩ := boutFinish_raises env hraise
    unfold Decides
    rw [he]
    refine iff_of_false (fun h => nomatch h.1) fun h => ?_
    rcases hraise with hplayer | hnone
    · rw [h.2.silent] at hplayer
      cases hplayer
    · have hsome := h.2.limited
      rw [hnone] at hsome
      cases hsome
  · obtain ⟨hsilent, hsome⟩ := not_or.1 hraise
    rw [Bool.not_eq_true] at hsilent
    obtain ⟨iBoutOut, hout⟩ := Option.ne_none_iff_exists'.1 hsome
    have hexec := exec_boutFinish env hsilent hout
    cases hlim : s.war.limitReached with
    | true =>
      rw [hlim, if_pos rfl] at hexec
      rw [decides_congr hexec]
      refine (arms_iff (s := { s with war := { s.war with iWarResult := some (env.random 1 2) } }) hi
        (hc _ List.mem_cons_self) List.mem_cons_self).trans ?_
      rw [decision_limit hlim hr]
      constructor
      · rintro ⟨hpos, harmed, hdecided⟩
        exact ⟨harmed, hsilent, hpos, by rw [hout]; rfl, hdecided.imp_right fun h => ⟨hlim, h⟩⟩
      · rintro ⟨harmed, hcont⟩
        exact ⟨hcont.animated, harmed, hcont.decided.imp_right fun h => h.2⟩
    | false =>
      rw [hlim, if_neg Bool.false_ne_true] at hexec
      rw [decides_congr hexec, arms_iff hi (hc _ (by decide)) (by decide), decision_next hlim]
      constructor
      · rintro ⟨hpos, harmed, hdecided⟩
        exact ⟨harmed, hsilent, hpos, by rw [hout]; rfl, Or.inl hdecided⟩
      · rintro ⟨harmed, hcont⟩
        refine ⟨hcont.animated, harmed, hcont.decided.resolve_right fun h => ?_⟩
        rw [hlim] at h
        cases h.1

/-- The decision is right, with one of the two timers armed, iff what was armed before is found by `DelTimeCb`, and the
round leaves the war so that it can go on. -/
theorem boutProcess_decides_iff (env : WarEnv) (code : RoundCode) (s : WarSys) {es : List (TimerEv String)}
    (htimer : StepSys.run TimerSys.step TimerSys.new es = some s.timer)
    (hr : env.random 1 2 = 1 ∨ env.random 1 2 = 2) :
    Decides (boutProcessOf env code) s ↔
      (∀ k ∈ nextKeys, s.timer.IndexedAt k) ∧ (code.after s.war).Continues env := by
  have hi := TimerSys.inv_run htimer
  rw [decides_congr (exec_boutProcessOf env code),
    boutFinish_decides_iff (hi.delAll warKeys) (fun _ hk => TimerSys.cleared_delAll (nextKeys_subset hk)) hr,
    TimerSys.armedUnder_delAll hi nextKeys_subset]

end Process

/-! ## Two wars -/

/-- A round in which nothing happens; there is no `BoutEnd`. -/
def idle : RoundCode := ⟨pure ⟨⟩, pure ⟨⟩, throw "attempt to call a nil value"⟩

/-- The second round of a war of two warriors. -/
def secondBout (iHp1 iHp2 : Int) : CWar where
  mWarriors iWid := if iWid = 1 then some ⟨.npc, iHp1, false⟩ else if iWid = 2 then some ⟨.npc, iHp2, false⟩ else none
  iAnimationTime := 100
  iWarId := 1
  lCamp1 := [1]
  lCamp2 := [2]
  mPid2Wid := []
  iBout := 2
  iBoutOut := some 10
  iOperatorTime := 0
  mBoutCmd := []
  iWarStatus := none
  iWarResult := none
  bWarEnd := false

/-- `BoutStart` has fired and armed `BoutProcess`, whose time is up. -/
def operated : List (TimerEv String) :=
  [.addTimeCb "BoutStart" 100, .tick 100, .fire 0, .addTimeCb "BoutProcess" 30, .finish 0, .tick 30, .fire 1]

/-- Both are alive, and the next round starts. -/
theorem boutProcess_decides_secondBout : ∃ timer, StepSys.run TimerSys.step TimerSys.new operated = some timer ∧
    Decides (boutProcessOf ⟨fun _ _ σ => σ, fun i _ => i⟩ idle) ⟨secondBout 50 50, timer, [], false⟩ := by
  have hrun : StepSys.run TimerSys.step TimerSys.new operated = some _ := rfl
  refine ⟨_, hrun, (boutProcess_decides_iff _ idle ⟨secondBout 50 50, _, [], false⟩ hrun (Or.inl rfl)).2
    ⟨fun k _ t ht => ?_, ?_⟩⟩
  · exact absurd ht List.not_mem_nil
  · exact ⟨rfl, by decide, rfl, Or.inl (by decide)⟩

/-- One is dead, and the next round starts. -/
theorem not_boutProcess_decides :
    ¬ Decides (boutProcessOf ⟨fun _ _ σ => σ, fun i _ => i⟩ idle) ⟨secondBout 0 50, TimerSys.new, [], false⟩ := by
  rw [decides_congr (exec_boutProcessOf _ idle)]
  have hi : (TimerSys.new : TimerSys String).Inv := TimerSys.Inv.new
  rw [boutFinish_decides_iff (hi.delAll warKeys) (fun _ hk => TimerSys.cleared_delAll (nextKeys_subset hk))
    (Or.inl rfl)]
  rintro ⟨-, hcont⟩
  rcases hcont.decided with halive | hlimit
  · exact absurd halive (by decide)
  · exact absurd hlimit.1 (by decide)

end WarSys

end RoundGame.War
