import RoundGame.Lib.StepSys
import RoundGame.World.LoadedBlocks

/-!
# What the marks of the blocks hide

What gamedb has of each block of an online player, in runs of the operations on the blocks, each a protected call. A run
starts when the record of the player was loaded. `Synced`: a block whose `IsDirty` is false saves the data that was
loaded or sent last.

- `RewardExp` marks nothing, and raises once the experience is added; `CheckUpgrade` changes nothing.
- `AddAmount` and `SetData` mark the item, which the `IsDirty` of the bag does not look at.
- Loading marks nothing either, even when a block does not save what was stored (`synced_loaded_iff`).
- A run keeps `Synced` iff the record is restored by loading and saving, and each step changes a marked block, or
  nothing (`synced_iff`).
-/

namespace RoundGame.World

open Function Lua StepSys

/-! ## Runs -/

inductive BlockEvent
  | rewardExp (iAdd : Integer) (sReason : String) (mArgs : Val)
  | checkUpgrade
  | addItemObj (o : CItem)
  | addAmount (iPos : Int) (iAdd : Integer)
  | use (iPos : Int)
  | itemSetData (iPos : Int) (k : Key) (v : Val)
  | setData (b : Block) (k : Key) (v : Val)
  | daySet (t : TimeKey) (k : Key) (v : Val)
  | dayDel (t : TimeKey) (k : Key)
  | dayAdd (t : TimeKey) (bOther : Bool) (k : Key) (iVal : Val)
  | tempSet (iTime : Int) (k : Key) (v : Val) (iDelay : Int)
  | tempReset (iTime : Int) (k : Key) (v : Val) (iDelay : Int)
  | tempAddDelay (k : Key) (iDelay : Int)
  | tempDelete (k : Key)
  | checkSaveDb (b : Block)
  | checkSaveDbAll

/-- What the operations depend on outside the player. -/
structure BlockEnv where
  ctrls : CtrlOrder
  daobiao : Daobiao

/-- A player, and what the data of each block hold that were last loaded from or sent to gamedb. -/
structure Blocks where
  player : CPlayer
  stored : Block → List Key → Leaf

namespace Blocks

/-- The blocks that `LoadPlayerCb` leaves of a new player, whose record gamedb has sent (`objs_loadPlayerCb`). -/
def loaded (env : LoadEnv) (iPid : Pid) (mRole : MRole) (g : CItemMgr) (record : Record) : Blocks where
  player := (World.loaded env record.val (CPlayer.new iPid mRole) g).1
  stored b := (record.val.entry (.str b.name)).content

def call (x : LuaM CPlayer PUnit) (s : Blocks) : Blocks := { s with player := safeCall x s.player }

/-- After code that has sent messages. -/
def saved (x : LuaM (CPlayer × List Sent) PUnit) (s : Blocks) : Blocks where
  player := (safeCall x (s.player, [])).1
  stored b :=
    (((safeCall x (s.player, [])).2.filter fun m => m.name = b.name).getLast?.map fun m => m.data.content).getD
      (s.stored b)

/-- An operation on an item needs one at its position. -/
def step (env : BlockEnv) (s : Blocks) : BlockEvent → Option Blocks
  | .rewardExp iAdd sReason mArgs =>
    some (s.call (CPlayer.onActive (CActiveCtrl.rewardExp env.daobiao iAdd.toInt sReason mArgs)))
  | .checkUpgrade => some (s.call (CPlayer.onActive (CActiveCtrl.checkUpgrade env.daobiao)))
  | .addItemObj o => some (s.call (CPlayer.onBag (CItemCtrl.addItemObj o)))
  | .addAmount iPos iAdd =>
    (s.player.oItemCtrl.mItemList iPos).map fun o =>
      s.call (CPlayer.onItem iPos o (CItem.addAmount env.daobiao iAdd.toInt))
  | .use iPos => (s.player.oItemCtrl.mItemList iPos).map fun o => s.call (CPlayer.use env.daobiao iPos o)
  | .itemSetData iPos k v =>
    (s.player.oItemCtrl.mItemList iPos).map fun o => s.call (CPlayer.onItem iPos o (CItem.setData k v))
  | .setData b k v => some (s.call (CPlayer.setData b k v))
  | .daySet t k v => some (s.call (CPlayer.onTime (CTimeCtrl.onDay t (CToday.set k v))))
  | .dayDel t k => some (s.call (CPlayer.onTime (CTimeCtrl.onDay t (CToday.del k))))
  | .dayAdd t bOther k iVal => some (s.call (CPlayer.onTime (CTimeCtrl.onDay t (CToday.add bOther k iVal))))
  | .tempSet iTime k v iDelay => some (s.call (CPlayer.onTime (CTimeCtrl.onTemp (CTemp.set iTime k v iDelay))))
  | .tempReset iTime k v iDelay => some (s.call (CPlayer.onTime (CTimeCtrl.onTemp (CTemp.reset iTime k v iDelay))))
  | .tempAddDelay k iDelay => some (s.call (CPlayer.onTime (CTimeCtrl.onTemp (CTemp.addDelay k iDelay))))
  | .tempDelete k => some (s.call (CPlayer.onTime (CTimeCtrl.onTemp (CTemp.delete k))))
  | .checkSaveDb b => some (s.saved (CPlayer.checkBlock env.ctrls b))
  | .checkSaveDbAll => some (s.saved (CPlayer.checkSaveDb env.ctrls))

/-- A block that says it has not changed saves what was stored last. -/
def Synced (env : BlockEnv) (s : Blocks) : Prop :=
  ∀ b, s.player.isDirty env.ctrls b = .ok false → (s.player.save b).content = s.stored b

end Blocks

/-! ## The exact condition -/

namespace Blocks

variable {env : BlockEnv} {s t : Blocks}

/-- The step changes a block that is marked, or the data of none: the condition on the operations that mark nothing. -/
def Harmless (env : BlockEnv) (s : Blocks) : BlockEvent → Prop
  | .rewardExp iAdd _ _ => s.player.oActiveCtrl.bDirty = true ∨ ¬ s.player.oActiveCtrl.Rewards iAdd.toInt
  | .addAmount iPos iAdd =>
    s.player.oItemCtrl.bDirty = true ∨ ∀ o ∈ s.player.oItemCtrl.mItemList iPos, o.Unmoved env.daobiao iAdd.toInt
  | .use iPos =>
    ∀ o ∈ s.player.oItemCtrl.mItemList iPos, ∀ iCost, o.Uses env.daobiao iCost →
      (s.player.oItemCtrl.bDirty = true ∨ o.Unmoved env.daobiao (wrap (-iCost))) ∧
        (s.player.oActiveCtrl.bDirty = true ∨ ¬ s.player.oActiveCtrl.Rewards (wrap (iCost * 1000)))
  | .itemSetData iPos k v =>
    s.player.oItemCtrl.bDirty = true ∨ ∀ o ∈ s.player.oItemCtrl.mItemList iPos, o.HasData k v
  | _ => True

/-- `IsDirty` of the time block raises. -/
theorem isDirty_iff {p : CPlayer} {b : Block} :
    p.isDirty env.ctrls b = .ok false ↔ b ≠ .time ∧ p.bDirty b = false := by
  by_cases hb : b = .time
  · subst hb
    show CTimeCtrl.isDirty env.ctrls.order = _ ↔ _
    rw [CPlayer.isDirty_time]
    simp
  · rw [CPlayer.isDirty_ne_time hb]
    simp [hb]

/-- A step after which each block is marked, or is as it was. -/
theorem synced_of (hs : s.Synced env) (hstored : t.stored = s.stored)
    (h : ∀ b ≠ .time, t.player.bDirty b = true ∨
      t.player.bDirty b = s.player.bDirty b ∧
        (s.player.bDirty b = true ∨ (t.player.save b).content = (s.player.save b).content)) :
    t.Synced env := by
  intro b hb
  obtain ⟨htime, hclean⟩ := isDirty_iff.1 hb
  rcases h b htime with hmark | ⟨hflag, hmark | hsave⟩
  · rw [hmark] at hclean
    cases hclean
  · rw [hflag, hmark] at hclean
    cases hclean
  · rw [hsave, hstored]
    exact hs b (isDirty_iff.2 ⟨htime, by rw [← hflag]; exact hclean⟩)

/-- A block that is not marked by a step has to be marked before, or to stay as it was. -/
theorem save_of_synced (hs : s.Synced env) (ht : t.Synced env) (hstored : t.stored = s.stored) {b : Block}
    (hb : b ≠ .time) (hflag : t.player.bDirty b = s.player.bDirty b) :
    s.player.bDirty b = true ∨ (t.player.save b).content = (s.player.save b).content := by
  cases hd : s.player.bDirty b with
  | true => exact Or.inl rfl
  | false =>
    right
    rw [ht b (isDirty_iff.2 ⟨hb, by rw [hflag]; exact hd⟩), hs b (isDirty_iff.2 ⟨hb, hd⟩), hstored]

theorem synced_onActive (hs : s.Synced env) {x : LuaM CActiveCtrl PUnit}
    (hflag : (safeCall x s.player.oActiveCtrl).bDirty = s.player.oActiveCtrl.bDirty) :
    (s.call (CPlayer.onActive x)).Synced env ↔
      s.player.oActiveCtrl.bDirty = true ∨
        (safeCall x s.player.oActiveCtrl).save.content = s.player.oActiveCtrl.save.content := by
  constructor
  · intro ht
    exact save_of_synced (b := .active) hs ht rfl (by decide) hflag
  · intro h
    refine synced_of hs rfl fun b hb => Or.inr ?_
    cases b with
    | base => exact ⟨rfl, Or.inr rfl⟩
    | active => exact ⟨hflag, h⟩
    | item => exact ⟨rfl, Or.inr rfl⟩
    | time => exact absurd rfl hb

theorem synced_onItem (hs : s.Synced env) {iPos : Int} {o : CItem} (ho : s.player.oItemCtrl.mItemList iPos = some o)
    (x : LuaM CItem PUnit) :
    (s.call (CPlayer.onItem iPos o x)).Synced env ↔
      s.player.oItemCtrl.bDirty = true ∨ (safeCall x o).save.content = o.save.content := by
  rw [← CPlayer.save_onItem ho x]
  constructor
  · intro ht
    exact save_of_synced (b := .item) hs ht rfl (by decide) rfl
  · intro h
    refine synced_of hs rfl fun b hb => Or.inr ⟨rfl, ?_⟩
    cases b with
    | base => exact Or.inr rfl
    | active => exact Or.inr rfl
    | item => exact h
    | time => exact absurd rfl hb

theorem synced_use (hs : s.Synced env) {d : Daobiao} {iPos : Int} {o : CItem} {iCost : Int}
    (ho : s.player.oItemCtrl.mItemList iPos = some o) (hu : o.Uses d iCost) :
    (s.call (CPlayer.use d iPos o)).Synced env ↔
      (s.player.oItemCtrl.bDirty = true ∨ o.Unmoved d (wrap (-iCost))) ∧
        (s.player.oActiveCtrl.bDirty = true ∨ ¬ s.player.oActiveCtrl.Rewards (wrap (iCost * 1000))) := by
  obtain ⟨sLogName, heq⟩ := CPlayer.use_eq hu iPos s.player
  have hcall : s.call (CPlayer.use d iPos o) =
      (s.call (CPlayer.onItem iPos o (CItem.addAmount d (wrap (-iCost))))).call
        (CPlayer.onActive (CActiveCtrl.rewardExp d (wrap (iCost * 1000)) sLogName .nil)) :=
    congrArg (fun p => (⟨p, s.stored⟩ : Blocks)) heq
  rw [hcall, ← CItem.save_addAmount, ← CActiveCtrl.save_rewardExp d (isInteger_wrap _) sLogName .nil,
    ← CPlayer.save_onItem ho]
  have hflag := CActiveCtrl.bDirty_rewardExp d (wrap (iCost * 1000)) sLogName .nil s.player.oActiveCtrl
  constructor
  · intro ht
    exact ⟨save_of_synced (b := .item) hs ht rfl (by decide) rfl,
      save_of_synced (b := .active) hs ht rfl (by decide) hflag⟩
  · rintro ⟨hitem, hactive⟩
    refine synced_of hs rfl fun b hb => Or.inr ?_
    cases b with
    | base => exact ⟨rfl, Or.inr rfl⟩
    | active => exact ⟨hflag, hactive⟩
    | item => exact ⟨rfl, hitem⟩
    | time => exact absurd rfl hb

/-- The time blocks have no `IsDirty` to be false. -/
theorem synced_onTime (hs : s.Synced env) (x : LuaM CTimeCtrl PUnit) : (s.call (CPlayer.onTime x)).Synced env := by
  refine synced_of hs rfl fun b hb => Or.inr ?_
  cases b with
  | base => exact ⟨rfl, Or.inr rfl⟩
  | active => exact ⟨rfl, Or.inr rfl⟩
  | item => exact ⟨rfl, Or.inr rfl⟩
  | time => exact absurd rfl hb

theorem synced_addItemObj (hs : s.Synced env) (o : CItem) :
    (s.call (CPlayer.onBag (CItemCtrl.addItemObj o))).Synced env := by
  refine synced_of hs rfl fun b hb => ?_
  cases b with
  | base => exact Or.inr ⟨rfl, Or.inr rfl⟩
  | active => exact Or.inr ⟨rfl, Or.inr rfl⟩
  | item =>
    rcases CItemCtrl.addItemObj_cases o s.player.oItemCtrl with hmark | hsame
    · exact Or.inl hmark
    · have hcontent := congrArg (fun c : CItemCtrl => (BlockData.items c.save).content) hsame
      exact Or.inr ⟨congrArg CItemCtrl.bDirty hsame, Or.inr hcontent⟩
  | time => exact absurd rfl hb

theorem synced_setData (hs : s.Synced env) (b : Block) (k : Key) (v : Val) :
    (s.call (CPlayer.setData b k v)).Synced env := by
  refine synced_of hs rfl fun b' hb' => ?_
  cases b <;> cases b' <;>
    first
    | exact absurd rfl hb'
    | exact Or.inl rfl
    | exact Or.inr ⟨rfl, Or.inr rfl⟩

/-- A step of `CheckSaveDb` changes nothing. -/
theorem saved_eq {x : LuaM (CPlayer × List Sent) PUnit} (hx : Keeps id x) (s : Blocks) : s.saved x = s := by
  have hkeep : safeCall x (s.player, []) = (s.player, []) := hx _
  unfold saved
  rw [hkeep]
  rfl

theorem synced_useItem (hs : s.Synced env) {iPos : Int} {o : CItem}
    (ho : s.player.oItemCtrl.mItemList iPos = some o) :
    (s.call (CPlayer.use env.daobiao iPos o)).Synced env ↔ s.Harmless env (.use iPos) := by
  by_cases hu : ∃ iCost, o.Uses env.daobiao iCost
  · obtain ⟨iCost, hu⟩ := hu
    rw [synced_use hs ho hu]
    constructor
    · intro h o' ho' iCost' hu'
      rw [ho] at ho'
      cases ho'
      have hcost : iCost = iCost' := by
        have heq := hu.2.1.symm.trans hu'.2.1
        exact Except.ok.inj heq
      rw [← hcost]
      exact h
    · exact fun h => h o ho iCost hu
  · have hu' : ∀ iCost, ¬ o.Uses env.daobiao iCost := fun iCost h => hu ⟨iCost, h⟩
    have hsame : s.call (CPlayer.use env.daobiao iPos o) = s := by
      unfold call
      rw [CPlayer.use_eq_self hu' iPos s.player]
    rw [hsame]
    refine iff_of_true hs ?_
    intro o' ho' iCost h
    rw [ho] at ho'
    cases ho'
    exact absurd h (hu' iCost)

/-- What one step does to blocks in step with gamedb. -/
theorem synced_step {e : BlockEvent} (hs : s.Synced env) (hstep : s.step env e = some t) :
    t.Synced env ↔ s.Harmless env e := by
  cases e with
  | rewardExp iAdd sReason mArgs =>
    cases hstep
    have hflag := CActiveCtrl.bDirty_rewardExp env.daobiao iAdd.toInt sReason mArgs s.player.oActiveCtrl
    rw [synced_onActive hs hflag, CActiveCtrl.save_rewardExp _ (isInteger_toInt iAdd)]
    rfl
  | checkUpgrade =>
    cases hstep
    have hkeep := CActiveCtrl.keeps_checkUpgrade env.daobiao s.player.oActiveCtrl
    refine iff_of_true ((synced_onActive hs (congrArg CActiveCtrl.bDirty hkeep)).2 (Or.inr ?_)) trivial
    exact congrArg (fun c : CActiveCtrl => c.save.content) hkeep
  | addItemObj o =>
    cases hstep
    exact iff_of_true (synced_addItemObj hs o) trivial
  | addAmount iPos iAdd =>
    obtain ⟨o, ho, rfl⟩ := Option.map_eq_some_iff.1 hstep
    rw [synced_onItem hs ho, CItem.save_addAmount]
    simp [Harmless, ho]
  | use iPos =>
    obtain ⟨o, ho, rfl⟩ := Option.map_eq_some_iff.1 hstep
    exact synced_useItem hs ho
  | itemSetData iPos k v =>
    obtain ⟨o, ho, rfl⟩ := Option.map_eq_some_iff.1 hstep
    rw [synced_onItem hs ho, CItem.save_setData]
    simp [Harmless, ho]
  | setData b k v =>
    cases hstep
    exact iff_of_true (synced_setData hs b k v) trivial
  | daySet k key v => cases hstep; exact iff_of_true (synced_onTime hs _) trivial
  | dayDel k key => cases hstep; exact iff_of_true (synced_onTime hs _) trivial
  | dayAdd k bOther key iVal => cases hstep; exact iff_of_true (synced_onTime hs _) trivial
  | tempSet iTime k v iDelay => cases hstep; exact iff_of_true (synced_onTime hs _) trivial
  | tempReset iTime k v iDelay => cases hstep; exact iff_of_true (synced_onTime hs _) trivial
  | tempAddDelay k iDelay => cases hstep; exact iff_of_true (synced_onTime hs _) trivial
  | tempDelete k => cases hstep; exact iff_of_true (synced_onTime hs _) trivial
  | checkSaveDb b =>
    cases hstep
    rw [saved_eq (CPlayer.keeps_checkBlock env.ctrls b)]
    exact iff_of_true hs trivial
  | checkSaveDbAll =>
    cases hstep
    rw [saved_eq (CPlayer.keeps_checkSaveDb env.ctrls)]
    exact iff_of_true hs trivial

variable (lenv : LoadEnv) (iPid : Pid) (mRole : MRole) (g : CItemMgr) (record : Record)

/-- No block of a player that was loaded is marked, so all but the time block have to save what was stored. -/
theorem synced_loaded_iff : (loaded lenv iPid mRole g record).Synced env ↔ Restorable lenv.items record.val := by
  rw [← content_loaded_iff lenv iPid mRole g record]
  have hdirty := dirty_loaded lenv record.val (CPlayer.new iPid mRole) g
  simp only [CPlayer.dirty, Prod.mk.injEq] at hdirty
  obtain ⟨hbase, hactive, hitem, -⟩ := hdirty
  have hclean : ∀ b ≠ .time, (loaded lenv iPid mRole g record).player.bDirty b = false := by
    intro b hb
    cases b with
    | base => exact hbase
    | active => exact hactive
    | item => exact hitem
    | time => exact absurd rfl hb
  constructor
  · exact fun h b hb => h b (isDirty_iff.2 ⟨hb, hclean b hb⟩)
  · exact fun h b hb => h b (isDirty_iff.1 hb).1

/-- **The marks of the blocks of a player hide no change**, in all states of a run from a loaded player, iff loading and
saving restores the record, and each step of the run changes a marked block, or nothing. -/
theorem synced_iff (env : BlockEnv) (es : List BlockEvent) :
    Always (step env) (Synced env) (loaded lenv iPid mRole g record) es ↔
      Restorable lenv.items record.val ∧ Along (step env) (Harmless env) (loaded lenv iPid mRole g record) es := by
  constructor
  · intro h
    exact ⟨(synced_loaded_iff lenv iPid mRole g record).1 h.start,
      (always_iff_along (fun hs ht => synced_step hs ht) h.start es).1 h⟩
  · rintro ⟨hrestored, h⟩
    have hs : (loaded lenv iPid mRole g record).Synced env := (synced_loaded_iff lenv iPid mRole g record).2 hrestored
    exact (always_iff_along (fun hs ht => synced_step hs ht) hs es).2 h

/-- The record of a player without experience and items. -/
def newRecord : Record where
  val := .tbl [(.str "basectrl", .tbl []), (.str "activectrl", .tbl [(.str "exp", .num 0), (.str "grade", .num 0)]),
    (.str "itemctrl", .tbl [(.str "itemdata", .tbl [])])]
  proper := by
    have hempty : Val.Proper (.tbl []) := .tbl (by decide) (by simp) (by simp)
    refine .tbl (by decide) (by simp) (List.forall_mem_cons.2 ⟨hempty, List.forall_mem_cons.2 ⟨?_, ?_⟩⟩)
    · refine .tbl (by decide) (by simp) (List.forall_mem_cons.2 ⟨.num 0, List.forall_mem_cons.2 ⟨.num 0, ?_⟩⟩)
      simp
    · refine List.forall_mem_cons.2 ⟨.tbl (by decide) (by simp) (List.forall_mem_cons.2 ⟨hempty, ?_⟩), ?_⟩
      · simp
      · simp

/-- An experience reward is hidden by the mark. -/
theorem not_synced :
    ¬ Always (step ⟨⟨[.todayctrl, .weekctrl, .monthctrl, .tempctrl], List.Perm.refl _⟩, gamedata⟩)
      (Synced ⟨⟨[.todayctrl, .weekctrl, .monthctrl, .tempctrl], List.Perm.refl _⟩, gamedata⟩)
      (loaded WorldState.repoEnv 1001 ⟨"ann", 1, 5, none⟩ CItemMgr.new newRecord)
      [.rewardExp 100 "task" (.tbl [])] := by
  intro h
  have hlast := (h.2 _ rfl).start .active rfl
  have hexp : Leaf.num (wrap (0 + 100)) = .num 0 := congrFun hlast [.str "exp"]
  revert hexp
  decide

end Blocks

end RoundGame.World
