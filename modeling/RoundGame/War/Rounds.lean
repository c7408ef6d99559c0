import RoundGame.War.CWar

/-!
# When the rounds of a war are executed

`RoundsOk`: between one `BoutStart` and the next there is exactly one `BoutExecute`, and it comes when the operation
time is over or every player has given a command for its own warrior.

- The invariant `Sound`: a round is open, with no `BoutStart` armed and `BoutProcess` not due before the operation time
  is over, or it is closed, with no `BoutProcess` armed (`boutStart_spec`, `boutProcess_spec`).
- Two things break it. `AddBoutCmd` looks at neither the status nor whose commands it counts; and a timeout that was
  deleted still runs, and clears the entry of the next one of its key. Runs without the two are `Orderly`, and keep
  `RoundsOk` (`rounds_ok`).
-/

namespace RoundGame.War

open Lua Base StepSys

/-! ## What the log says -/

/-- The marks since the last `BoutStart`: when that was, whose commands came, and how often `BoutExecute` ran. -/
structure Round where
  start : Option Nat
  cmds : List Wid
  execs : Nat

def round : List Mark → Round
  | [] => ⟨none, [], 0⟩
  | .start now :: _ => ⟨some now, [], 0⟩
  | .cmd iWid :: l => { round l with cmds := iWid :: (round l).cmds }
  | .exec _ :: l => { round l with execs := (round l).execs + 1 }

/-- The operation time, from `BoutStart` to the timeout `BoutProcess`. -/
def operatorTime : Nat := 30

/-- `lOwn` lists the warriors of the players. -/
def RoundsOk (lOwn : List Wid) : List Mark → Prop
  | [] => True
  | .start _ :: l => RoundsOk lOwn l ∧ ∀ t₀, (round l).start = some t₀ → (round l).execs = 1
  | .cmd _ :: l => RoundsOk lOwn l
  | .exec now :: l => RoundsOk lOwn l ∧ ∀ t₀, (round l).start = some t₀ → (round l).execs = 0 ∧
      (t₀ + operatorTime ≤ now ∨ ∀ iWid ∈ lOwn, iWid ∈ (round l).cmds)

namespace WarSys

/-- The command fills the table, so that the round is closed. -/
def Fills (s : WarSys) (iWid : Wid) (mCmd : MCmd) : Prop :=
  s.war.mPid2Wid.length ≤ (setCmd iWid mCmd s.war.mBoutCmd).length

/-- The operation time of the round is over. -/
def TimedOut (s : WarSys) : Prop := ∃ t₀, (round s.log).start = some t₀ ∧ t₀ + operatorTime ≤ s.timer.now

/-- A command that fills the table comes before the animation, and when the table has a command of every player or the
operation time is over; a closure of `BoutStart` or `BoutProcess` that was deleted does not find the entry of another
one. -/
def Orderly (s : WarSys) : WarEv → Prop
  | .addBoutCmd iWid mCmd => s.Fills iWid mCmd → s.war.iWarStatus ≠ some .animation ∧
      (s.TimedOut ∨ ∀ iOwn ∈ s.war.ownWids, iOwn = iWid ∨ ∃ c ∈ s.war.mBoutCmd, c.1 = iOwn)
  | .tick _ => True
  | .fire n => ∀ t ∈ s.timer.pending, t.reg = n → t.sKey = "BoutStart" ∨ t.sKey = "BoutProcess" →
      s.timer.timer.mIndex2Func t.iCb = none → s.timer.OwnEntry t

/-! ## The invariant -/

/-- The timer of the war while the closures `l` run. -/
structure Tidy (t : TimerSys String) (l : List (Timeout String)) : Prop where
  inv : t.Inv
  start : t.IndexedAt "BoutStart"
  process : t.IndexedAt "BoutProcess"
  running : t.running = l

/-- A round that is not executed yet. -/
structure Open (s : WarSys) (t₀ : Nat) : Prop where
  start : (round s.log).start = some t₀
  execs : (round s.log).execs = 0
  noStart : s.timer.AllArmed "BoutStart" fun _ => False
  due : s.timer.AllArmed "BoutProcess" fun t => t₀ + operatorTime ≤ t.due
  cmds : ∀ iWid, iWid ∈ (round s.log).cmds ↔ ∃ c ∈ s.war.mBoutCmd, c.1 = iWid
  status : s.war.iWarStatus ≠ some .animation

/-- A round that is executed. -/
structure Closed (s : WarSys) : Prop where
  start : ∃ t₀, (round s.log).start = some t₀
  execs : (round s.log).execs = 1
  noProcess : s.timer.AllArmed "BoutProcess" fun _ => False
  status : s.war.iWarStatus = some .animation

/-- `mPid2Wid` is that of the war; `l` are the closures that run. -/
structure Sound (mPid2Wid : List (Pid × Wid)) (l : List (Timeout String)) (s : WarSys) : Prop where
  pids : s.war.mPid2Wid = mPid2Wid
  ok : RoundsOk s.war.ownWids s.log
  tidy : s.hung = false → Tidy s.timer l
  bout : 1 ≤ s.war.iBout
  phase : s.hung = false → (∃ t₀, s.Open t₀) ∨ s.Closed

variable {m : List (Pid × Wid)} {l : List (Timeout String)} {s : WarSys} {env : WarEnv}

theorem Tidy.delTimeCb {t : TimerSys String} (h : Tidy t l) (k : String) : Tidy (t.delTimeCb k) l :=
  ⟨TimerSys.inv_step (e := .delTimeCb k) h.inv rfl, h.start.delTimeCb k, h.process.delTimeCb k, h.running⟩

theorem Tidy.addTimeCb {t : TimerSys String} (h : Tidy t l) (k : String) (d : Nat) : Tidy (t.addTimeCb k d) l :=
  ⟨h.inv.addTimeCb k d, h.start.addTimeCb h.inv, h.process.addTimeCb h.inv, h.running⟩

/-! ## `BoutExecute` changes warriors and the animation time only -/

/-- What the rounds depend on. -/
def frame (s : WarSys) :
    List (Pid × Wid) × Nat × List (Wid × MCmd) × Option WarStatus × TimerSys String × List Mark × Bool :=
  (s.war.mPid2Wid, s.war.iBout, s.war.mBoutCmd, s.war.iWarStatus, s.timer, s.log, s.hung)

theorem keeps_broadCast : Keeps id broadCast := by
  refine Keeps.bind Keeps.get fun s => Keeps.forM (fun p => ?_) s.war.mPid2Wid
  cases s.war.mWarriors p.2 with
  | none => exact Keeps.pure _
  | some oWarrior =>
    dsimp only
    split
    · exact Keeps.throw _
    · exact Keeps.pure _

theorem keeps_setAction (iWid : Wid) : Keeps frame (setAction iWid) := Keeps.modify fun _ => rfl

theorem keeps_executeCmd (env : WarEnv) (c : Wid × MCmd) : Keeps frame (executeCmd env c) := by
  refine Keeps.bind Keeps.get fun s => ?_
  cases s.war.mWarriors c.1 with
  | none => exact Keeps.pure _
  | some oWarrior =>
    dsimp only
    split
    · exact Keeps.pure _
    · exact Keeps.bind (keeps_setAction c.1) fun _ => Keeps.bind (Keeps.modify fun _ => rfl) fun _ => Keeps.pure _

theorem keeps_boutExecute (env : WarEnv) : Keeps frame (boutExecute env) := by
  have hset : ∀ c : Wid × MCmd, Keeps frame (setAction c.1) := fun c => keeps_setAction c.1
  refine Keeps.bind Keeps.get fun s => Keeps.bind (Keeps.forM hset _) fun _ => ?_
  split
  · exact Keeps.pure _
  · exact keeps_executeCmd env _
  · exact Keeps.throw _

/-! ## `BoutProcess` -/

/-- The round is executed, or being executed without end. -/
structure Done (mPid2Wid : List (Pid × Wid)) (l : List (Timeout String)) (s : WarSys) : Prop where
  pids : s.war.mPid2Wid = mPid2Wid
  ok : RoundsOk s.war.ownWids s.log
  tidy : s.hung = false → Tidy s.timer l
  bout : 1 ≤ s.war.iBout
  closed : s.hung = false → s.Closed

theorem Done.sound (h : Done m l s) : Sound m l s :=
  ⟨h.pids, h.ok, h.tidy, h.bout, fun hh => Or.inr (h.closed hh)⟩

theorem Done.of_frame {t : WarSys} (ht : t.frame = s.frame) (h : Done m l s) : Done m l t := by
  simp only [frame, Prod.mk.injEq] at ht
  obtain ⟨hpids, hbout, -, hstatus, htimer, hlog, hhung⟩ := ht
  refine ⟨hpids.trans h.pids, ?_, ?_, hbout ▸ h.bout, ?_⟩
  · rw [hlog, CWar.ownWids, hpids]
    exact h.ok
  · rw [hhung, htimer]
    exact h.tidy
  · intro hh
    have hc := h.closed (hhung ▸ hh)
    exact ⟨hlog ▸ hc.start, hlog ▸ hc.execs, htimer ▸ hc.noProcess, hstatus.trans hc.status⟩

theorem onWar_done {u : CWar → CWar} (hpids : ∀ w, (u w).mPid2Wid = w.mPid2Wid)
    (hbout : ∀ w, (u w).iBout = w.iBout) (hstatus : ∀ w, (u w).iWarStatus = w.iWarStatus) :
    Spec (Done m l) (onWar u) (fun _ => Done m l) (Done m l) := by
  refine Spec.modify fun s h => ?_
  refine ⟨(hpids s.war).trans h.pids, ?_, h.tidy, hbout s.war ▸ h.bout, ?_⟩
  · show RoundsOk ((u s.war).mPid2Wid.map Prod.snd) s.log
    rw [hpids]
    exact h.ok
  · intro hh
    have hc := h.closed hh
    exact ⟨hc.start, hc.execs, hc.noProcess, (hstatus s.war).trans hc.status⟩

theorem Done.addTimeCb (h : Done m l s) {k : String} (hk : k ≠ "BoutProcess") (d : Nat) :
    Done m l { s with timer := s.timer.addTimeCb k d } := by
  refine ⟨h.pids, h.ok, fun hh => (h.tidy hh).addTimeCb k d, h.bout, ?_⟩
  intro hh
  have hc := h.closed hh
  exact ⟨hc.start, hc.execs, hc.noProcess.addTimeCb (h.tidy hh).inv fun e => hk e, hc.status⟩

theorem addTimeCb_done {k : String} (hk : k ≠ "BoutProcess") (iDelay : Int) :
    Spec (Done m l) (addTimeCb k iDelay) (fun _ => Done m l) (Done m l) := by
  unfold addTimeCb
  split
  · exact Spec.bind (R := fun _ => Done m l) (Spec.throw fun _ h => h) fun _ => Spec.modify fun _ h => h.addTimeCb hk _
  · exact Spec.modify fun _ h => h.addTimeCb hk _

theorem boutFinish_spec (env : WarEnv) : Spec (Done m l) (boutFinish env) (fun _ => Done m l) (Done m l) := by
  have hcast : Spec (Done m l) broadCast (fun _ => Done m l) (Done m l) :=
    Spec.of_keeps keeps_broadCast fun s t e h => (show t = s from e) ▸ h
  refine Spec.bind hcast fun _ => ?_
  refine Spec.get_bind fun s hs => Spec.conseq (P := Done m l) ?_ (fun _ e => e ▸ hs) (fun _ _ h => h) fun _ h => h
  have hend : ∀ (iRes : Nat), Spec (Done m l) (do
      onWar fun w => { w with iWarResult := some iRes }
      addTimeCb "WarEnd" s.war.iAnimationTime) (fun _ => Done m l) (Done m l) := fun iRes =>
    Spec.bind (R := fun _ => Done m l) (onWar_done (fun _ => rfl) (fun _ => rfl) fun _ => rfl) fun _ =>
      addTimeCb_done (by decide) _
  dsimp only
  split
  · exact hend 2
  · split
    · exact hend 1
    · split
      · exact Spec.throw fun _ h => h
      · split
        · exact hend _
        · exact addTimeCb_done (by decide) _

/-- What `BoutProcess` needs: an open round whose operation time is over, or that every player has given a command
for. -/
structure Ready (mPid2Wid : List (Pid × Wid)) (l : List (Timeout String)) (s : WarSys) : Prop where
  pids : s.war.mPid2Wid = mPid2Wid
  ok : RoundsOk s.war.ownWids s.log
  tidy : Tidy s.timer l
  bout : 1 ≤ s.war.iBout
  start : ∃ t₀, (round s.log).start = some t₀
  execs : (round s.log).execs = 0
  due : s.TimedOut ∨ ∀ iWid ∈ s.war.ownWids, iWid ∈ (round s.log).cmds

theorem Ready.delTimeCb (h : Ready m l s) (k : String) : Ready m l { s with timer := s.timer.delTimeCb k } :=
  ⟨h.pids, h.ok, h.tidy.delTimeCb k, h.bout, h.start, h.execs, h.due⟩

/-- Where `BoutProcess` calls `BoutExecute`. -/
theorem Ready.done (h : Ready m l s) (hnone : s.timer.AllArmed "BoutProcess" fun _ => False) :
    Done m l { s with war := { s.war with iWarStatus := some .animation }, log := .exec s.timer.now :: s.log } := by
  refine ⟨h.pids, ⟨h.ok, ?_⟩, fun _ => h.tidy, h.bout, fun _ => ⟨h.start, ?_, hnone, rfl⟩⟩
  · intro t₀ ht₀
    refine ⟨h.execs, h.due.imp ?_ id⟩
    rintro ⟨t₁, ht₁, hle⟩
    rw [ht₁] at ht₀
    cases ht₀
    exact hle
  · show (round s.log).execs + 1 = 1
    rw [h.execs]

theorem boutProcess_spec (env : WarEnv) : Spec (Ready m l) (boutProcess env) (fun _ => Done m l) (Done m l) := by
  -- up to `BoutExecute` nothing raises
  have hdels : Spec (Ready m l) delTimeCbs
      (fun _ s => Ready m l s ∧ s.timer.AllArmed "BoutProcess" fun _ => False) (Done m l) := by
    intro s h
    have hready := ((((h.delTimeCb "BoutStart").delTimeCb "BoutEnd").delTimeCb "BoutProcess").delTimeCb
      "CheckAutoPerform").delTimeCb "WarEnd"
    have hprocess := ((h.tidy.delTimeCb "BoutStart").delTimeCb "BoutEnd").process
    exact ⟨hready, (hprocess.disarmed.delTimeCb "CheckAutoPerform").delTimeCb "WarEnd"⟩
  have hexec : Spec (Done m l) (boutExecute env) (fun _ => Done m l) (Done m l) :=
    Spec.of_keeps (keeps_boutExecute env) fun s t e h => h.of_frame e
  unfold boutProcess
  refine Spec.bind hdels fun _ => ?_
  -- the mark counts from here on
  refine Spec.bind (R := fun _ s => Done m l { s with log := .exec s.timer.now :: s.log })
    (Spec.modify fun s h => h.1.done h.2) fun _ => ?_
  refine Spec.bind (R := fun _ => Done m l) (Spec.modify fun s h => h) fun _ => ?_
  refine Spec.bind (R := fun _ => Done m l) (Spec.protect hexec) fun r => ?_
  split
  · refine Spec.modify fun s h => ⟨h.pids, h.ok, ?_, h.bout, ?_⟩
    · intro hh
      cases hh
    · intro hh
      cases hh
  · exact boutFinish_spec env

/-! ## `BoutStart` -/

/-- A round has been opened. -/
structure Opened (mPid2Wid : List (Pid × Wid)) (l : List (Timeout String)) (s : WarSys) : Prop where
  pids : s.war.mPid2Wid = mPid2Wid
  ok : RoundsOk s.war.ownWids s.log
  tidy : Tidy s.timer l
  bout : 1 ≤ s.war.iBout
  phase : ∃ t₀, s.Open t₀

theorem Opened.sound (h : Opened m l s) : Sound m l s :=
  ⟨h.pids, h.ok, fun _ => h.tidy, h.bout, fun _ => Or.inl h.phase⟩

/-- What `BoutStart` needs: that the round before is executed. Only the first call raises at `OnWarStart`, before it has
cleared the commands. -/
structure Ended (mPid2Wid : List (Pid × Wid)) (l : List (Timeout String)) (s : WarSys) : Prop where
  pids : s.war.mPid2Wid = mPid2Wid
  ok : RoundsOk s.war.ownWids s.log
  tidy : Tidy s.timer l
  execs : ∀ t₀, (round s.log).start = some t₀ → (round s.log).execs = 1
  first : s.war.iBout = 0 → s.war.mBoutCmd = [] ∧ s.war.iWarStatus ≠ some .animation

/-- The rest of `BoutStart`, within the same moment. -/
structure Opening (mPid2Wid : List (Pid × Wid)) (l : List (Timeout String)) (t₀ : Nat) (s : WarSys) : Prop where
  pids : s.war.mPid2Wid = mPid2Wid
  ok : RoundsOk s.war.ownWids s.log
  tidy : Tidy s.timer l
  bout : 1 ≤ s.war.iBout
  phase : s.Open t₀
  now : s.timer.now = t₀
  time : s.getOperatorTime = operatorTime

theorem Opening.opened {t₀ : Nat} (h : Opening m l t₀ s) : Opened m l s :=
  ⟨h.pids, h.ok, h.tidy, h.bout, t₀, h.phase⟩

theorem Open.addTimeCb {t₀ : Nat} (h : s.Open t₀) (hi : s.timer.Inv) {k : String} {d : Nat}
    (hstart : k ≠ "BoutStart") (hdue : k = "BoutProcess" → t₀ + operatorTime ≤ s.timer.now + d) :
    Open { s with timer := s.timer.addTimeCb k d } t₀ :=
  ⟨h.start, h.execs, h.noStart.addTimeCb hi fun e => hstart e, h.due.addTimeCb hi hdue, h.cmds, h.status⟩

/-- The end of `BoutStart`: the clients are told, and the two timers are set. -/
theorem opening_spec (t₀ : Nat) : Spec (Opening m l t₀) (do
      broadCast
      addTimeCb "CheckAutoPerform" (3 * 1000)
      addTimeCb "BoutProcess" (← get).getOperatorTime) (fun _ => Opened m l) (Opened m l) := by
  have hcast : Spec (Opening m l t₀) broadCast (fun _ => Opening m l t₀) (Opened m l) :=
    Spec.conseq (Spec.of_keeps keeps_broadCast fun t u e ht => (show u = t from e) ▸ ht) (fun _ ht => ht)
      (fun _ _ ht => ht) fun _ ht => ht.opened
  refine Spec.bind hcast fun _ => ?_
  refine Spec.bind (R := fun _ => Opening m l t₀) (Spec.modify fun t ht => ?_) fun _ => ?_
  · exact ⟨ht.pids, ht.ok, ht.tidy.addTimeCb _ _, ht.bout,
      ht.phase.addTimeCb ht.tidy.inv (by decide) fun e => absurd e (by decide), ht.now, ht.time⟩
  · refine Spec.get_bind fun t ht => ?_
    rw [ht.time]
    refine Spec.modify fun u hu => ?_
    subst hu
    refine ⟨ht.pids, ht.ok, ht.tidy.addTimeCb _ _, ht.bout, t₀, ?_⟩
    refine ht.phase.addTimeCb ht.tidy.inv (by decide) fun _ => ?_
    rw [ht.now]
    exact Nat.le_refl _

theorem boutStart_spec : Spec (Ended m l) boutStart (fun _ => Opened m l) (Opened m l) := by
  intro s h
  -- what the deletions leave
  have htidy := ((((h.tidy.delTimeCb "BoutStart").delTimeCb "BoutEnd").delTimeCb "BoutProcess").delTimeCb
    "CheckAutoPerform").delTimeCb "WarEnd"
  have hstart := (((h.tidy.start.disarmed.delTimeCb "BoutEnd").delTimeCb "BoutProcess").delTimeCb
    "CheckAutoPerform").delTimeCb "WarEnd"
  have hprocess := ((((h.tidy.delTimeCb "BoutStart").delTimeCb "BoutEnd").process.disarmed).delTimeCb
    "CheckAutoPerform").delTimeCb "WarEnd"
  have hok : RoundsOk s.war.ownWids (.start s.timer.now :: s.log) := ⟨h.ok, h.execs⟩
  have hdue := hprocess.imp (Q := fun t => s.timer.now + operatorTime ≤ t.due) fun _ hf => hf.elim
  let timer := ((((s.timer.delTimeCb "BoutStart").delTimeCb "BoutEnd").delTimeCb "BoutProcess").delTimeCb
    "CheckAutoPerform").delTimeCb "WarEnd"
  let s₁ : WarSys := { s with
    war := { s.war with iBout := s.war.iBout + 1 }
    timer := timer
    log := .start s.timer.now :: s.log }
  refine (?_ : Spec (· = s₁) (do
    if (← get).war.iBout = 1 then throw "attempt to call a nil value (method 'OnWarStart')"
    onWar fun w => { w with mBoutCmd := [], iWarStatus := some .operator }
    addOperatorTime 30
    broadCast
    addTimeCb "CheckAutoPerform" (3 * 1000)
    addTimeCb "BoutProcess" (← get).getOperatorTime) (fun _ => Opened m l) (Opened m l)) s₁ rfl
  refine Spec.get_bind fun t ht => ?_
  subst ht
  dsimp only
  split
  · -- the first call raises at `OnWarStart`
    rename_i hb
    obtain ⟨hcmd, hstatus⟩ := h.first (Nat.succ.inj hb)
    refine Spec.bind (R := fun _ _ => False) (Spec.throw fun t ht => ?_) fun _ _ hf => hf.elim
    subst ht
    refine ⟨h.pids, hok, htidy, Nat.le_add_left 1 _, s.timer.now, rfl, rfl, hstart, hdue, fun i => ?_, hstatus⟩
    rw [show s₁.war.mBoutCmd = [] from hcmd]
    show i ∈ [] ↔ _
    simp
  · intro t ht
    subst ht
    refine opening_spec s.timer.now _ ⟨h.pids, hok, htidy, Nat.le_add_left 1 _, ?_, rfl, ?_⟩
    · refine ⟨rfl, rfl, hstart, hdue, fun i => ?_, ?_⟩
      · show i ∈ [] ↔ ∃ c ∈ ([] : List (Wid × MCmd)), c.1 = i
        simp
      · intro e
        cases e
    · show max 0 ((timer.now : Int) / 100 + 30 - timer.now / 100) = 30
      omega

/-! ## Steps -/

theorem keys_setCmd {iWid i : Wid} {mCmd : MCmd} {cs : List (Wid × MCmd)} :
    (∃ c ∈ setCmd iWid mCmd cs, c.1 = i) ↔ i = iWid ∨ ∃ c ∈ cs, c.1 = i := by
  unfold setCmd
  constructor
  · rintro ⟨c, hc, rfl⟩
    rcases List.mem_cons.1 hc with rfl | hc
    · exact Or.inl rfl
    · exact Or.inr ⟨c, (List.mem_filter.1 hc).1, rfl⟩
  · intro h
    by_cases hi : i = iWid
    · exact ⟨(iWid, mCmd), List.mem_cons_self, hi.symm⟩
    · obtain ⟨c, hc, rfl⟩ := h.resolve_left hi
      exact ⟨c, List.mem_cons_of_mem _ (List.mem_filter.2 ⟨hc, by simpa using hi⟩), rfl⟩

theorem sound_addBoutCmd (h : Sound m [] s) (hh : s.hung = false) {iWid : Wid} {mCmd : MCmd}
    (hc : s.Orderly (.addBoutCmd iWid mCmd)) : Sound m [] (safeCall (addBoutCmd env iWid mCmd) s) := by
  let s₁ : WarSys := { s with
    war := { s.war with mBoutCmd := setCmd iWid mCmd s.war.mBoutCmd }
    log := .cmd iWid :: s.log }
  have hopen : ∀ t₀, s.Open t₀ → s₁.Open t₀ := by
    intro t₀ ho
    refine ⟨ho.start, ho.execs, ho.noStart, ho.due, fun i => ?_, ho.status⟩
    show i ∈ iWid :: (round s.log).cmds ↔ ∃ c ∈ setCmd iWid mCmd s.war.mBoutCmd, c.1 = i
    rw [List.mem_cons, keys_setCmd, ho.cmds]
  refine Spec.safeCall (P := (· = s)) (E := Sound m []) ?_ rfl
  intro t ht
  subst ht
  refine (?_ : Spec (· = s₁) (do
    let w := (← get).war
    if w.mPid2Wid.length ≤ w.mBoutCmd.length then
      WarSys.delTimeCb "BoutProcess"
      boutProcess env) (fun _ => Sound m []) (Sound m [])) s₁ rfl
  refine Spec.get_bind fun t ht => ?_
  subst ht
  dsimp only
  split
  · rename_i hfill
    obtain ⟨hstatus, hdue⟩ := hc hfill
    rcases h.phase hh with ⟨t₀, ho⟩ | hcl
    · have hready : Ready m [] s₁ := by
        refine ⟨h.pids, h.ok, h.tidy hh, h.bout, ⟨t₀, ho.start⟩, ho.execs, hdue.imp id ?_⟩
        intro hall iOwn hOwn
        rcases hall iOwn hOwn with rfl | hcmd
        · exact List.mem_cons_self
        · exact List.mem_cons_of_mem _ ((ho.cmds iOwn).2 hcmd)
      have hproc : Spec (Ready m []) (boutProcess env) (fun _ => Sound m []) (Sound m []) :=
        Spec.conseq (boutProcess_spec env) (fun _ e => e) (fun _ _ hd => hd.sound) fun _ hd => hd.sound
      refine Spec.bind (R := fun _ => Ready m []) (Spec.modify fun t ht => ?_) fun _ => hproc
      subst ht
      exact hready.delTimeCb "BoutProcess"
    · exact absurd hcl.status hstatus
  · refine Spec.pure fun t ht => ?_
    subst ht
    refine ⟨h.pids, h.ok, h.tidy, h.bout, fun hh => ?_⟩
    rcases h.phase hh with ⟨t₀, ho⟩ | hcl
    · exact Or.inl ⟨t₀, hopen t₀ ho⟩
    · exact Or.inr ⟨hcl.start, hcl.execs, hcl.noProcess, hcl.status⟩

theorem sound_tick (h : Sound m l s) (n : Nat) :
    Sound m l { s with timer := { s.timer with now := s.timer.now + n } } := by
  refine ⟨h.pids, h.ok, fun hh => ?_, h.bout, fun hh => ?_⟩
  · have htidy := h.tidy hh
    exact ⟨TimerSys.inv_step (e := .tick n) htidy.inv rfl, htidy.start, htidy.process, htidy.running⟩
  · rcases h.phase hh with ⟨t₀, ho⟩ | hcl
    · exact Or.inl ⟨t₀, ho.start, ho.execs, ho.noStart, ho.due, ho.cmds, ho.status⟩
    · exact Or.inr ⟨hcl.start, hcl.execs, hcl.noProcess, hcl.status⟩

theorem Sound.delTimeCb (h : Sound m l s) (k : String) : Sound m l { s with timer := s.timer.delTimeCb k } := by
  refine ⟨h.pids, h.ok, fun hh => (h.tidy hh).delTimeCb k, h.bout, fun hh => ?_⟩
  rcases h.phase hh with ⟨t₀, ho⟩ | hcl
  · exact Or.inl ⟨t₀, ho.start, ho.execs, ho.noStart.delTimeCb k, ho.due.delTimeCb k, ho.cmds, ho.status⟩
  · exact Or.inr ⟨hcl.start, hcl.execs, hcl.noProcess.delTimeCb k, hcl.status⟩

theorem Sound.of_frame {t : WarSys} (ht : t.frame = s.frame) (h : Sound m l s) : Sound m l t := by
  simp only [frame, Prod.mk.injEq] at ht
  obtain ⟨hpids, hbout, hcmds, hstatus, htimer, hlog, hhung⟩ := ht
  refine ⟨hpids.trans h.pids, ?_, ?_, hbout ▸ h.bout, ?_⟩
  · rw [hlog, CWar.ownWids, hpids]
    exact h.ok
  · rw [hhung, htimer]
    exact h.tidy
  · intro hh
    rcases h.phase (hhung ▸ hh) with ⟨t₀, ho⟩ | hcl
    · exact Or.inl ⟨t₀, hlog ▸ ho.start, hlog ▸ ho.execs, htimer ▸ ho.noStart, htimer ▸ ho.due,
        by rw [hcmds, hlog]; exact ho.cmds, hstatus ▸ ho.status⟩
    · exact Or.inr ⟨hlog ▸ hcl.start, hlog ▸ hcl.execs, htimer ▸ hcl.noProcess, hstatus.trans hcl.status⟩

theorem keeps_warEnd : Keeps frame warEnd := by
  refine Keeps.bind Keeps.get fun s => ?_
  split
  · exact Keeps.pure _
  · refine Keeps.bind (Keeps.modify fun _ => rfl) fun _ => Keeps.bind ?_ fun _ => Keeps.throw _
    exact fun s => congrArg frame (keeps_broadCast s)

/-- The callbacks of the other keys. -/
theorem sound_callback (env : WarEnv) {k : String} (hstart : k ≠ "BoutStart") (hprocess : k ≠ "BoutProcess")
    (h : Sound m l s) :
    Sound m l (safeCall (callback env k) s) := by
  unfold callback
  split
  · exact absurd rfl hstart
  · exact absurd rfl hprocess
  · exact h.delTimeCb "CheckAutoPerform"
  · exact h.of_frame (keeps_warEnd s)
  · exact h

/-- The callback of `BoutProcess` that is armed comes in an open round whose operation time is over. -/
theorem ready_of_armed (h : Sound m l s) (hh : s.hung = false) {t : Timeout String} (ht : t ∈ s.timer.pending)
    (hk : t.sKey = "BoutProcess") (hf : (s.timer.timer.mIndex2Func t.iCb).isSome) (hdue : t.due ≤ s.timer.now) :
    s.TimedOut ∧ (round s.log).execs = 0 := by
  rcases h.phase hh with ⟨t₀, ho⟩ | hcl
  · exact ⟨⟨t₀, ho.start, Nat.le_trans (ho.due t ht hk hf) hdue⟩, ho.execs⟩
  · exact (hcl.noProcess t ht hk hf).elim

/-- The callback of `BoutStart` that is armed comes in a round that is executed. -/
theorem ended_of_armed (h : Sound m l s) (hh : s.hung = false) {t : Timeout String} (ht : t ∈ s.timer.pending)
    (hk : t.sKey = "BoutStart") (hf : (s.timer.timer.mIndex2Func t.iCb).isSome) : (round s.log).execs = 1 := by
  rcases h.phase hh with ⟨t₀, ho⟩ | hcl
  · exact (ho.noStart t ht hk hf).elim
  · exact hcl.execs

theorem Tidy.finish {u : TimerSys String} {t : Timeout String} (h : Tidy u [t])
    (hstart : t.sKey = "BoutStart" → u.AllArmed "BoutStart" fun _ => False)
    (hprocess : t.sKey = "BoutProcess" → u.AllArmed "BoutProcess" fun _ => False) : Tidy (u.finish t) [] := by
  have hmem : t ∈ u.running := by rw [h.running]; exact List.mem_singleton_self t
  refine ⟨?_, h.start.finish hstart, h.process.finish hprocess, ?_⟩
  · exact h.inv.ended (TimerSys.held_perm_running hmem) fun _ hu => hu
  · show u.running.erase t = []
    rw [h.running, List.erase_cons_head]

/-- A closure that has called its callback ends, unless the callback does not return. -/
theorem Sound.finish {t : Timeout String} (h : Sound m [t] s)
    (hstart : s.hung = false → t.sKey = "BoutStart" → s.timer.AllArmed "BoutStart" fun _ => False)
    (hprocess : s.hung = false → t.sKey = "BoutProcess" → s.timer.AllArmed "BoutProcess" fun _ => False) :
    Sound m [] (if s.hung then s else { s with timer := s.timer.finish t }) := by
  cases hh : s.hung with
  | true =>
    rw [if_pos rfl]
    refine ⟨h.pids, h.ok, fun hf => ?_, h.bout, fun hf => ?_⟩
    · rw [hh] at hf
      cases hf
    · rw [hh] at hf
      cases hf
  | false =>
    rw [if_neg (by decide)]
    refine ⟨h.pids, h.ok, fun _ => (h.tidy hh).finish (hstart hh) (hprocess hh), h.bout, fun _ => ?_⟩
    rcases h.phase hh with ⟨t₀, ho⟩ | hcl
    · exact Or.inl ⟨t₀, ho.start, ho.execs, ho.noStart.finish, ho.due.finish, ho.cmds, ho.status⟩
    · exact Or.inr ⟨hcl.start, hcl.execs, hcl.noProcess.finish, hcl.status⟩

theorem Sound.start {t : Timeout String} (h : Sound m [] s) (ht : t ∈ s.timer.pending)
    (hc : s.Orderly (.fire t.reg)) {r : List (Timeout String)} (hr : (s.timer.start t).running = r) :
    Sound m r { s with timer := s.timer.start t } := by
  refine ⟨h.pids, h.ok, fun hh => ?_, h.bout, fun hh => ?_⟩
  · have htidy := h.tidy hh
    refine ⟨htidy.inv.start ht, htidy.start.start fun hf hk => hc t ht rfl (Or.inl hk) hf,
      htidy.process.start fun hf hk => hc t ht rfl (Or.inr hk) hf, hr⟩
  · rcases h.phase hh with ⟨t₀, ho⟩ | hcl
    · exact Or.inl ⟨t₀, ho.start, ho.execs, ho.noStart.start, ho.due.start, ho.cmds, ho.status⟩
    · exact Or.inr ⟨hcl.start, hcl.execs, hcl.noProcess.start, hcl.status⟩

theorem sound_fire (h : Sound m [] s) (hh : s.hung = false) {t : Timeout String} (ht : t ∈ s.timer.pending)
    (hdue : t.due ≤ s.timer.now) (hc : s.Orderly (.fire t.reg)) : Sound m [] (s.fire env t) := by
  have htidy := h.tidy hh
  unfold fire
  cases hf : s.timer.timer.mIndex2Func t.iCb with
  | none =>
    refine h.start ht hc ?_
    rw [TimerSys.start_none hf]
    exact htidy.running
  | some f =>
    have hrun : (s.timer.start t).running = [t] := by
      rw [TimerSys.start_some hf, htidy.running]
    have hs₁ := h.start ht hc hrun
    have harmed : (s.timer.timer.mIndex2Func t.iCb).isSome := by rw [hf]; rfl
    have hkey : s.timer.keys.getD f "" = t.sKey := by
      have hmem := TimerSys.mem_held_of_pending ht
      rw [show f = t.reg from htidy.inv.held.func_own hmem hf, List.getD_eq_getElem?_getD, htidy.inv.key t hmem]
      rfl
    simp only [hkey]
    by_cases hstart : t.sKey = "BoutStart"
    · rw [hstart]
      have hended : Ended m [t] { s with timer := s.timer.start t } := by
        have hexecs := ended_of_armed h hh ht hstart harmed
        refine ⟨h.pids, h.ok, hs₁.tidy hh, fun _ _ => hexecs, fun hb => ?_⟩
        have hbout := h.bout
        rw [show s.war.iBout = 0 from hb] at hbout
        cases hbout
      have hopened : Opened m [t] (safeCall (callback env "BoutStart") { s with timer := s.timer.start t }) :=
        Spec.safeCall boutStart_spec hended
      obtain ⟨t₀, ho⟩ := hopened.phase
      refine hopened.sound.finish (fun _ _ => ho.noStart) fun _ hk => ?_
      rw [hstart] at hk
      exact absurd hk (by decide)
    · by_cases hprocess : t.sKey = "BoutProcess"
      · rw [hprocess]
        obtain ⟨htime, hexecs⟩ := ready_of_armed h hh ht hprocess harmed hdue
        have hready : Ready m [t] { s with timer := s.timer.start t } := by
          obtain ⟨t₀, ht₀, hle⟩ := htime
          refine ⟨h.pids, h.ok, hs₁.tidy hh, h.bout, ⟨t₀, ht₀⟩, hexecs, Or.inl ?_⟩
          refine ⟨t₀, ht₀, ?_⟩
          rw [TimerSys.start_some hf]
          exact hle
        have hspec : Spec (Ready m [t]) (onAIBoutProcess env) (fun _ => Done m [t]) (Done m [t]) :=
          Spec.bind (Spec.modify fun _ hr => hr.delTimeCb "BoutProcess") fun _ => boutProcess_spec env
        have hdone : Done m [t] (safeCall (callback env "BoutProcess") { s with timer := s.timer.start t }) :=
          Spec.safeCall hspec hready
        refine hdone.sound.finish (fun _ hk => ?_) fun hn _ => (hdone.closed hn).noProcess
        exact absurd hk hstart
      · have hs₂ := sound_callback env hstart hprocess hs₁
        exact hs₂.finish (fun _ hk => absurd hk hstart) fun _ hk => absurd hk hprocess

theorem sound_step {t : WarSys} {e : WarEv} (h : Sound m [] s) (hc : s.Orderly e) (hs : step env s e = some t) :
    Sound m [] t := by
  cases e with
  | addBoutCmd iWid mCmd =>
    simp only [step] at hs
    split at hs
    · cases hs
    · rename_i hh
      cases hs
      exact sound_addBoutCmd h (by simpa using hh) hc
  | tick n =>
    cases hs
    exact sound_tick h n
  | fire n =>
    simp only [step] at hs
    split at hs
    · cases hs
    · rename_i hh
      obtain ⟨u, hu, rfl⟩ := Option.map_eq_some_iff.1 hs
      have hp := List.find?_some hu
      simp only [decide_eq_true_eq] at hp
      obtain ⟨rfl, hdue⟩ := hp
      exact sound_fire h (by simpa using hh) (List.mem_of_find?_eq_some hu) hdue hc

theorem sound_init (w : CWar) : Sound w.mPid2Wid [] (init w) := by
  have htidy : Tidy TimerSys.new [] := by
    refine ⟨TimerSys.Inv.new, ?_, ?_, rfl⟩
    · intro t ht
      cases ht
    · intro t ht
      cases ht
  have hended : Ended w.mPid2Wid [] ⟨{ w with iWarStatus := none, mBoutCmd := [] }, TimerSys.new, [], false⟩ := by
    refine ⟨rfl, trivial, htidy, ?_, fun _ => ⟨rfl, ?_⟩⟩
    · intro t₀ ht₀
      cases ht₀
    · intro e
      cases e
  exact (Opened.sound (Spec.safeCall boutStart_spec hended))

/-! ## The commands that are out of turn -/

/-- What the last part of `BoutProcess` leaves. -/
def seen (s : WarSys) : List Mark × List (Pid × Wid) := (s.log, s.war.mPid2Wid)

theorem keeps_boutFinish (env : WarEnv) : Keeps seen (boutFinish env) := by
  have hcast : Keeps seen broadCast := fun s => congrArg seen (keeps_broadCast s)
  have hadd : ∀ k d, Keeps seen (addTimeCb k d) := by
    intro k d
    unfold addTimeCb
    split
    · exact Keeps.bind (Keeps.throw _) fun _ => Keeps.modify fun _ => rfl
    · exact Keeps.modify fun _ => rfl
  have hend : ∀ (iRes : Nat) d, Keeps seen (do
      onWar fun w => { w with iWarResult := some iRes }
      addTimeCb "WarEnd" d) := fun iRes d => Keeps.bind (Keeps.modify fun _ => rfl) fun _ => hadd _ _
  refine Keeps.bind hcast fun _ => Keeps.bind Keeps.get fun s => ?_
  dsimp only
  split
  · exact hend 2 _
  · split
    · exact hend 1 _
    · split
      · exact Keeps.throw _
      · split
        · exact hend _ _
        · exact hadd _ _

/-- `BoutProcess` marks one `BoutExecute`. -/
theorem boutProcess_seen (env : WarEnv) (x : List Mark × List (Pid × Wid)) :
    Spec (fun s => (.exec s.timer.now :: s.log, s.war.mPid2Wid) = x) (boutProcess env) (fun _ s => s.seen = x)
      (fun s => s.seen = x) := by
  have hexec : Spec (fun s => s.seen = x) (boutExecute env) (fun _ s => s.seen = x) (fun s => s.seen = x) := by
    refine Spec.of_keeps (keeps_boutExecute env) fun s t hframe h => ?_
    simp only [frame, Prod.mk.injEq] at hframe
    exact (Prod.ext hframe.2.2.2.2.2.1 hframe.1 : t.seen = s.seen).trans h
  let P := fun s : WarSys => (Mark.exec s.timer.now :: s.log, s.war.mPid2Wid) = x
  have hdels : Spec P delTimeCbs (fun _ => P) (fun s => s.seen = x) := fun s h => h
  unfold boutProcess
  refine Spec.bind (R := fun _ => P) hdels fun _ => ?_
  refine Spec.bind (R := fun _ => P) (Spec.modify fun s h => h) fun _ => ?_
  refine Spec.bind (R := fun _ s => s.seen = x) (Spec.modify fun s h => h) fun _ => ?_
  refine Spec.bind (R := fun _ s => s.seen = x) (Spec.protect hexec) fun r => ?_
  split
  · exact Spec.modify fun s h => h
  · exact Spec.of_keeps (keeps_boutFinish env) fun s t heq h => heq.trans h

/-- A command that fills the table executes the round. -/
theorem addBoutCmd_log (env : WarEnv) {iWid : Wid} {mCmd : MCmd} (hf : s.Fills iWid mCmd) :
    (safeCall (addBoutCmd env iWid mCmd) s).seen = (.exec s.timer.now :: .cmd iWid :: s.log, s.war.mPid2Wid) := by
  let s₁ : WarSys := { s with log := .cmd iWid :: s.log }
  let s₂ : WarSys := { s₁ with war := { s.war with mBoutCmd := setCmd iWid mCmd s.war.mBoutCmd } }
  refine Spec.safeCall (P := fun t => t = s) (E := fun t => t.seen = _) ?_ rfl
  unfold addBoutCmd
  refine Spec.bind (R := fun _ t => t = s₁) (Spec.modify fun t h => by rw [h]) fun _ => ?_
  refine Spec.bind (R := fun _ t => t = s₂) (Spec.modify fun t h => by rw [h]) fun _ => ?_
  refine Spec.get_bind fun t ht => ?_
  have hf' : t.war.mPid2Wid.length ≤ t.war.mBoutCmd.length := by
    rw [ht]
    exact hf
  simp only [if_pos hf']
  refine Spec.bind (R := fun _ t => (.exec t.timer.now :: t.log, t.war.mPid2Wid) =
    ((.exec s.timer.now :: .cmd iWid :: s.log, s.war.mPid2Wid) : List Mark × List (Pid × Wid)))
    (Spec.modify fun u hu => ?_) fun _ => boutProcess_seen env _
  rw [hu, ht]
  rfl

/-- In a state of a run, a command out of turn breaks the rounds at once. -/
theorem not_orderly_breaks (h : Sound m [] s) (hh : s.hung = false) {iWid : Wid} {mCmd : MCmd}
    (hc : ¬ s.Orderly (.addBoutCmd iWid mCmd)) :
    ¬ RoundsOk (safeCall (addBoutCmd env iWid mCmd) s).war.ownWids (safeCall (addBoutCmd env iWid mCmd) s).log := by
  obtain ⟨hf, hc⟩ := Classical.not_imp.1 hc
  have hseen := addBoutCmd_log env hf
  simp only [seen, Prod.mk.injEq] at hseen
  rw [CWar.ownWids, hseen.1, hseen.2]
  rintro ⟨-, hexec⟩
  rcases h.phase hh with ⟨t₀, ho⟩ | hcl
  · obtain ⟨-, hready⟩ := hexec t₀ ho.start
    refine hc ⟨ho.status, hready.imp (fun hle => ⟨t₀, ho.start, hle⟩) fun hall iOwn hOwn => ?_⟩
    rcases List.mem_cons.1 (hall iOwn hOwn) with heq | hmem
    · exact Or.inl heq
    · exact Or.inr ((ho.cmds iOwn).1 hmem)
  · obtain ⟨t₀, ht₀⟩ := hcl.start
    have hzero := (hexec t₀ ht₀).1
    rw [show (round (.cmd iWid :: s.log)).execs = 1 from hcl.execs] at hzero
    cases hzero

/-- **The rounds of a war** are each executed once and not too early, in every state of a run without commands that
close a round out of turn and without closures that clear another one's entry. -/
theorem rounds_ok (env : WarEnv) (w : CWar) (es : List WarEv) (h : Along (step env) Orderly (init w) es) :
    Always (step env) (fun s => RoundsOk s.war.ownWids s.log) (init w) es :=
  (always_of_along (fun hs hc ht => sound_step hs hc ht) (sound_init w) h).imp fun _ hs => hs.ok

instance (s : WarSys) : Decidable s.TimedOut :=
  decidable_of_iff (∃ t₀ ∈ (round s.log).start, t₀ + operatorTime ≤ s.timer.now) Iff.rfl

instance (s : WarSys) : ∀ e, Decidable (s.Orderly e)
  | .addBoutCmd iWid mCmd => inferInstanceAs (Decidable
      (s.war.mPid2Wid.length ≤ (setCmd iWid mCmd s.war.mBoutCmd).length → s.war.iWarStatus ≠ some .animation ∧
        (s.TimedOut ∨ ∀ iOwn ∈ s.war.ownWids, iOwn = iWid ∨ ∃ c ∈ s.war.mBoutCmd, c.1 = iOwn)))
  | .tick _ => isTrue trivial
  | .fire n => inferInstanceAs (Decidable (∀ t ∈ s.timer.pending, t.reg = n → t.sKey = "BoutStart" ∨
      t.sKey = "BoutProcess" → s.timer.timer.mIndex2Func t.iCb = none → s.timer.OwnEntry t))

/-- A war of two players, whose summons are the warriors 2 and 4. -/
def duel : CWar where
  mWarriors _ := none
  iAnimationTime := 100
  iWarId := 1
  lCamp1 := [1, 2]
  lCamp2 := [3, 4]
  mPid2Wid := [(101, 1), (102, 3)]
  iBout := 1
  iBoutOut := some 10
  iOperatorTime := 0
  mBoutCmd := []
  iWarStatus := none
  iWarResult := none
  bWarEnd := false

/-- Both players give their commands, the deleted timeout runs, and the next round starts. -/
theorem rounds_ok_duel :
    Always (step ⟨fun _ _ f => f, fun i _ => i⟩) (fun s => RoundsOk s.war.ownWids s.log) (init duel)
    [.addBoutCmd 1 (.normalAttack 3), .addBoutCmd 3 (.normalAttack 1), .tick 30, .fire 1, .tick 70, .fire 2] :=
  rounds_ok _ _ _ (by decide)

/-- Two commands for the summons execute the round at once. -/
theorem not_rounds_ok : ¬ Always (step ⟨fun _ _ f => f, fun i _ => i⟩) (fun s => RoundsOk s.war.ownWids s.log)
    (init duel) [.addBoutCmd 2 (.normalAttack 3), .addBoutCmd 4 (.normalAttack 1)] := by
  intro h
  have hlast := ((h.2 _ rfl).2 _ rfl).start
  rcases (hlast.2 0 rfl).2 with hle | hall
  · exact absurd hle (by decide)
  · exact absurd (hall 1 (by decide)) (by decide)

end WarSys

end RoundGame.War
