import Mathlib.Data.List.Basic
import RoundGame.Lib.LuaContent
import RoundGame.World.SaveBlocks

/-!
# The operations on the blocks of a player

Experience, items and the bag: the operations on the blocks, and what each of them leaves.

- `RewardExp` adds the experience and then raises, in `PropChange` or before it (`rewardExp_eq`, `rewardExp_raises`).
  The offline variant `rewardExpOf false` has no player to call `PropChange` of;
- `Use` of an experience item takes the cost from the amount first, and then calls `RewardExp` (`useOf_eq`).

All sums wrap around at 64 bits.
-/

namespace RoundGame.World

open Function Lua

/-- The configuration of an item. -/
structure ItemConfig where
  name : String
  costAmount : Option Integer
  maxAmount : Option Integer

/-- `share["daobiao"]`. -/
structure Daobiao where
  item : Val → Option ItemConfig
  grade2exp : Val → Option Int

/-- `daobiao/gamedata/data.lua`. -/
def gamedata : Daobiao where
  item
    | .num 1001 => some ⟨"道具名-虚拟金币", some 1, some 99⟩
    | .num 10001 => some ⟨"道具名-经验丹", some 1, some 99⟩
    | _ => none
  grade2exp
    | .num 1 => some 100
    | .num 2 => some 230
    | .num 3 => some 400
    | .num 4 => some 700
    | .num 5 => some 1000
    | _ => none

/-! ## The operations -/

namespace CActiveCtrl

/-- `oPlayer:PropChange(...)`: nothing assigns `global.oWorld`. -/
def propChange (lProp : List String) : LuaM CActiveCtrl PUnit :=
  lProp.forM fun _ => throw "attempt to index a nil value (field 'oWorld')"

/-- A message to the client. -/
def notify (_sMsg : Val) : LuaM CActiveCtrl PUnit := pure ⟨⟩

/-- `self.m_iExp >= iNextExp`. -/
def reached (iExp : Val) : Option Int → Except String Bool
  | some iNextExp => do return !(← iExp.lt iNextExp)
  | none => .error ("attempt to compare nil with " ++ iExp.typeName)

/-- The loop subtracts `iNexExp`, a global that nothing assigns, so it raises in its first turn; `PropChange` is not
a method of `self`. -/
def checkUpgrade (d : Daobiao) : LuaM CActiveCtrl PUnit := do
  let c ← get
  if ← LuaM.lift (reached c.iExp (d.grade2exp c.iGrade)) then
    throw "attempt to perform arithmetic on a nil value (global 'iNexExp')"
  throw "attempt to call a nil value (method 'PropChange')"

/-- `RewardExp` for a player who may be offline; then `GetOnlinePlayerByPid` returns nothing. -/
def rewardExpOf (bOnline : Bool) (d : Daobiao) (iAdd : Int) (sReason : String) (mArgs : Val) :
    LuaM CActiveCtrl PUnit := do
  if iAdd ≤ 0 then throw ("exp " ++ toString iAdd ++ " less than 0, " ++ sReason)
  let iExp ← LuaM.lift (← get).iExp.toNumber
  modify fun c => { c with iExp := .num (wrap (iExp + iAdd)) }
  if bOnline then propChange ["exp"] else throw "attempt to index a nil value (local 'oPlayer')"
  match ← LuaM.lift (mArgs.index "tip") with
  | .bool false => pure ⟨⟩
  | _ =>
    let sContent ← LuaM.lift (mArgs.index "tip_content")
    notify (if sContent.truthy then sContent else .str ("获得" ++ toString iAdd ++ "经验"))
  checkUpgrade d

/-- `RewardExp` of an online player. -/
def rewardExp : Daobiao → Int → String → Val → LuaM CActiveCtrl PUnit := rewardExpOf true

end CActiveCtrl

namespace CItem

def getConfig (d : Daobiao) (o : CItem) : Except String ItemConfig :=
  match d.item o.iSid with
  | some mConfig => .ok mConfig
  | none => .error "attempt to index a nil value (local 'mConfig')"

def logName (d : Daobiao) (o : CItem) : Except String String := (o.getConfig d).map ItemConfig.name

def getMaxAmount (d : Daobiao) (o : CItem) : Except String Int :=
  (o.getConfig d).map fun m => (m.maxAmount.getD 99).toInt

def getCostAmount (d : Daobiao) (o : CItem) : Except String Int :=
  (o.getConfig d).map fun m => (m.costAmount.getD 1).toInt

def addAmount (d : Daobiao) (iAdd : Int) : LuaM CItem PUnit := do
  modify fun o => { o with bDirty := true }
  let iMaxAmount ← LuaM.lift ((← get).getMaxAmount d)
  let iAmount ← LuaM.lift (← get).iAmount.toNumber
  modify fun o => { o with iAmount := .num (max 0 (min (wrap (iAmount + iAdd)) iMaxAmount)) }

def validUse (d : Daobiao) (o : CItem) : Except String Bool := do
  let iCostAmount ← o.getCostAmount d
  return !(← o.iAmount.lt iCostAmount)

def setData (k : Key) (v : Val) : LuaM CItem PUnit := do
  modify fun o => { o with bDirty := true }
  let mData ← LuaM.lift ((← get).mData.set k v)
  modify fun o => { o with mData := mData }

end CItem

namespace CItemCtrl

def getMaxRange : Nat := 100

/-- The first free position. -/
def validAddItemObj (c : CItemCtrl) : Option Int :=
  ((List.range getMaxRange).map fun i => (i : Int) + 1).find? fun iPos => (c.mItemList iPos).isNone

def addItemObj (o : CItem) : LuaM CItemCtrl PUnit := do
  match (← get).validAddItemObj with
  | none => return
  | some iPos => modify fun c => { c with mItemList := update c.mItemList iPos (some o), bDirty := true }

end CItemCtrl

namespace CPlayer

def onActive (x : LuaM CActiveCtrl PUnit) : LuaM CPlayer PUnit :=
  x.within oActiveCtrl fun c p => { p with oActiveCtrl := c }

def onBag (x : LuaM CItemCtrl PUnit) : LuaM CPlayer PUnit := x.within oItemCtrl fun c p => { p with oItemCtrl := c }

def onTime (x : LuaM CTimeCtrl PUnit) : LuaM CPlayer PUnit := x.within oTimeCtrl fun c p => { p with oTimeCtrl := c }

/-- Code on the item `o` that the player holds at `iPos`. -/
def onItem (iPos : Int) (o : CItem) (x : LuaM CItem PUnit) : LuaM CPlayer PUnit :=
  onBag (x.within (fun _ => o) fun o c => { c with mItemList := update c.mItemList iPos (some o) })

/-- The `TrueUse` of `item/other/i10001`, by a player who may be offline; every other item has the one of `itembase`. -/
def trueUseOf (bOnline : Bool) (d : Daobiao) (iPos : Int) (o : CItem) : LuaM CPlayer PUnit :=
  match o.iSid with
  | .num 10001 => do
    let iCost ← LuaM.lift (o.getCostAmount d)
    let sLogName ← LuaM.lift (o.logName d)
    onItem iPos o (CItem.addAmount d (wrap (-iCost)))
    let iAddExp := wrap (iCost * 1000)
    onActive (CActiveCtrl.rewardExpOf bOnline d iAddExp sLogName .nil)
  | _ => pure ⟨⟩

/-- `Use` by a player who may be offline. -/
def useOf (bOnline : Bool) (d : Daobiao) (iPos : Int) (o : CItem) : LuaM CPlayer PUnit := do
  if !(← LuaM.lift (o.validUse d)) then return
  trueUseOf bOnline d iPos o

/-- `Use` by an online player. -/
def use : Daobiao → Int → CItem → LuaM CPlayer PUnit := useOf true

/-- `SetData` of a block marks the block; its `m_mData` is in no `Save`, and the mark of the time block is not the one
that its `IsDirty` looks for. -/
def setData (b : Block) (_k : Key) (_v : Val) : LuaM CPlayer PUnit :=
  match b with
  | .base => modify fun p => { p with oBaseCtrl := { p.oBaseCtrl with bDirty := true } }
  | .active => modify fun p => { p with oActiveCtrl := { p.oActiveCtrl with bDirty := true } }
  | .item => modify fun p => { p with oItemCtrl := { p.oItemCtrl with bDirty := true } }
  | .time => pure ⟨⟩

end CPlayer

/-! ## What the operations change -/

/-- `RewardExp` gets past its `assert`, and past the addition. -/
def CActiveCtrl.Rewards (c : CActiveCtrl) (iAdd : Int) : Prop := 0 < iAdd ∧ ∃ i, c.iExp.toNumber = .ok i

/-- The amount is the one that adding `iAdd` would give already, if it can be added at all. -/
def CItem.Unmoved (d : Daobiao) (iAdd : Int) (o : CItem) : Prop :=
  ∀ iMax i, o.getMaxAmount d = .ok iMax → o.iAmount.toNumber = .ok i →
    o.iAmount = .num (max 0 (min (wrap (i + iAdd)) iMax))

/-- `Use` gets to `AddAmount` and `RewardExp`, with the cost `iCost`. -/
def CItem.Uses (d : Daobiao) (o : CItem) (iCost : Int) : Prop :=
  o.iSid = .num 10001 ∧ o.getCostAmount d = .ok iCost ∧ o.validUse d = .ok true

theorem CActiveCtrl.keeps_checkUpgrade (d : Daobiao) : Keeps id (checkUpgrade d) := by
  intro c
  unfold checkUpgrade safeCall
  rw [LuaM.exec_bind, LuaM.exec_get]
  simp only
  rw [LuaM.exec_bind, LuaM.exec_lift]
  cases reached c.iExp (d.grade2exp c.iGrade) with
  | error e => rfl
  | ok b => cases b <;> rfl

section Rewarded

variable (bOnline : Bool) (d : Daobiao) (sReason : String) (mArgs : Val) {c : CActiveCtrl}

/-- `RewardExp` adds the experience, and raises at the latest in `PropChange`. -/
theorem CActiveCtrl.rewardExpOf_eq {iAdd i : Int} (hpos : 0 < iAdd) (hi : c.iExp.toNumber = .ok i) :
    ∃ err, (rewardExpOf bOnline d iAdd sReason mArgs).exec c =
      (.error err, { c with iExp := .num (wrap (i + iAdd)) }) := by
  unfold rewardExpOf
  rw [if_neg (by omega)]
  show ∃ err, ((get >>= fun c => LuaM.lift c.iExp.toNumber >>= _ : LuaM CActiveCtrl PUnit).exec c) = _
  rw [LuaM.exec_bind, LuaM.exec_get]
  simp only
  rw [LuaM.exec_bind, LuaM.exec_lift, hi]
  cases bOnline with
  | true => exact ⟨_, rfl⟩
  | false => exact ⟨_, rfl⟩

theorem CActiveCtrl.rewardExpOf_eq_self {iAdd : Int} (h : ¬ c.Rewards iAdd) :
    ∃ err, (rewardExpOf bOnline d iAdd sReason mArgs).exec c = (.error err, c) := by
  unfold rewardExpOf
  by_cases hpos : iAdd ≤ 0
  · rw [if_pos hpos]
    exact ⟨_, rfl⟩
  · rw [if_neg hpos]
    show ∃ err, ((get >>= fun c => LuaM.lift c.iExp.toNumber >>= _ : LuaM CActiveCtrl PUnit).exec c) = _
    rw [LuaM.exec_bind, LuaM.exec_get]
    simp only
    rw [LuaM.exec_bind, LuaM.exec_lift]
    cases hi : c.iExp.toNumber with
    | error e => exact ⟨_, rfl⟩
    | ok i => exact absurd ⟨by omega, i, hi⟩ h

/-- `RewardExp` raises, whatever it is given. -/
theorem CActiveCtrl.rewardExp_raises (iAdd : Int) : ¬ Completes (rewardExp d iAdd sReason mArgs) c := by
  unfold Completes rewardExp
  by_cases h : c.Rewards iAdd
  · obtain ⟨hpos, i, hi⟩ := h
    obtain ⟨err, heq⟩ := rewardExpOf_eq true d sReason mArgs hpos hi
    rw [heq]
    exact fun hok => by cases hok
  · obtain ⟨err, heq⟩ := rewardExpOf_eq_self true d sReason mArgs h
    rw [heq]
    exact fun hok => by cases hok

theorem CActiveCtrl.rewardExp_eq {iAdd i : Int} (hpos : 0 < iAdd) (hi : c.iExp.toNumber = .ok i) :
    safeCall (rewardExp d iAdd sReason mArgs) c = { c with iExp := .num (wrap (i + iAdd)) } := by
  obtain ⟨err, heq⟩ := rewardExpOf_eq true d sReason mArgs hpos hi
  exact congrArg Prod.snd heq

theorem CActiveCtrl.rewardExp_eq_self {iAdd : Int} (h : ¬ c.Rewards iAdd) :
    safeCall (rewardExp d iAdd sReason mArgs) c = c := by
  obtain ⟨err, heq⟩ := rewardExpOf_eq_self true d sReason mArgs h
  exact congrArg Prod.snd heq

end Rewarded

/-- It does not mark the block. -/
theorem CActiveCtrl.bDirty_rewardExp (d : Daobiao) (iAdd : Int) (sReason : String) (mArgs : Val) (c : CActiveCtrl) :
    (safeCall (rewardExp d iAdd sReason mArgs) c).bDirty = c.bDirty := by
  by_cases h : c.Rewards iAdd
  · obtain ⟨hpos, i, hi⟩ := h
    rw [rewardExp_eq d sReason mArgs hpos hi]
  · rw [rewardExp_eq_self d sReason mArgs h]

/-- What is added is no multiple of `2 ^ 64`, so the experience changes. -/
theorem CActiveCtrl.save_rewardExp (d : Daobiao) {iAdd : Int} (hadd : IsInteger iAdd) (sReason : String) (mArgs : Val)
    (c : CActiveCtrl) :
    (safeCall (rewardExp d iAdd sReason mArgs) c).save.content = c.save.content ↔ ¬ c.Rewards iAdd := by
  by_cases h : c.Rewards iAdd
  · refine iff_of_false ?_ (not_not_intro h)
    obtain ⟨hpos, i, hi⟩ := h
    rw [rewardExp_eq d sReason mArgs hpos hi]
    intro heq
    have hleaf : Leaf.num (wrap (i + iAdd)) = c.iExp.leaf := congrFun heq [.str "exp"]
    have hexp : c.iExp = .num (wrap (i + iAdd)) := Val.leaf_eq_num.1 hleaf.symm
    rw [hexp] at hi
    have hsame : wrap (i + iAdd) = i := by simpa [Val.toNumber] using hi
    exact wrap_add_ne hadd hpos hsame
  · rw [rewardExp_eq_self d sReason mArgs h]
    exact iff_of_true rfl h

theorem CItem.exec_addAmount {d : Daobiao} {o : CItem} {iMax i : Int}
    (hmax : getMaxAmount d { o with bDirty := true } = .ok iMax) (hamount : o.iAmount.toNumber = .ok i) (iAdd : Int) :
    (addAmount d iAdd).exec o =
      (.ok ⟨⟩, { o with iAmount := .num (max 0 (min (wrap (i + iAdd)) iMax)), bDirty := true }) := by
  unfold addAmount
  rw [LuaM.exec_bind, LuaM.exec_modify]
  simp only
  rw [LuaM.exec_bind, LuaM.exec_get]
  simp only
  rw [LuaM.exec_bind, LuaM.exec_lift, hmax]
  simp only
  rw [LuaM.exec_bind, LuaM.exec_get]
  simp only
  rw [LuaM.exec_bind, LuaM.exec_lift, hamount]
  rfl

/-- What an item saves stays the same when its amount and its data do. -/
theorem CItem.content_save (o : CItem) (mData iAmount : Val) (bDirty : Bool) :
    (save { o with mData := mData, iAmount := iAmount, bDirty := bDirty }).content = o.save.content ↔
      mData.content = o.mData.content ∧ iAmount.content = o.iAmount.content := by
  constructor
  · intro h
    exact ⟨funext fun ks => congrFun h (.str "data" :: ks), funext fun ks => congrFun h (.str "amount" :: ks)⟩
  · rintro ⟨hdata, hamount⟩
    funext ks
    cases ks with
    | nil => rfl
    | cons k ks =>
      simp only [save, Val.content_cons, Val.entry_cons]
      split_ifs with hk
      · exact congrFun hdata ks
      · rfl
      · exact congrFun hamount ks
      · rfl

theorem CItem.save_addAmount (d : Daobiao) (iAdd : Int) (o : CItem) :
    (safeCall (addAmount d iAdd) o).save.content = o.save.content ↔ o.Unmoved d iAdd := by
  unfold addAmount safeCall Unmoved
  rw [LuaM.exec_bind, LuaM.exec_modify]
  simp only
  rw [LuaM.exec_bind, LuaM.exec_get]
  simp only
  rw [LuaM.exec_bind, LuaM.exec_lift]
  show _ ↔ ∀ iMax i, getMaxAmount d { o with bDirty := true } = .ok iMax → _
  cases hmax : getMaxAmount d { o with bDirty := true } with
  | error e => exact iff_of_true rfl fun _ _ h => by cases h
  | ok iMax =>
    simp only
    rw [LuaM.exec_bind, LuaM.exec_get]
    simp only
    rw [LuaM.exec_bind, LuaM.exec_lift]
    cases hi : o.iAmount.toNumber with
    | error e => exact iff_of_true rfl fun _ _ _ h => by cases h
    | ok i =>
      simp only [LuaM.exec_modify]
      rw [content_save]
      simp [eq_comm, Val.content_num]

/-- `o.mData[k]` holds what `v` does already, or cannot be assigned. -/
def CItem.HasData (o : CItem) (k : Key) (v : Val) : Prop :=
  o.mData.leaf = .table → (o.mData.entry k).content = v.content

theorem CItem.save_setData (k : Key) (v : Val) (o : CItem) :
    (safeCall (setData k v) o).save.content = o.save.content ↔ o.HasData k v := by
  unfold setData safeCall HasData
  rw [LuaM.exec_bind, LuaM.exec_modify]
  simp only
  rw [LuaM.exec_bind, LuaM.exec_get]
  simp only
  rw [LuaM.exec_bind, LuaM.exec_lift]
  cases hd : o.mData with
  | tbl entries =>
    simp only [Val.set, LuaM.exec_modify]
    rw [content_save]
    simp [hd, Val.setEntry_same_iff, Val.leaf]
  | nil => exact iff_of_true (by simp [Val.set, save, hd]) fun h => by cases h
  | bool b => exact iff_of_true (by simp [Val.set, save, hd]) fun h => by cases h
  | num i => exact iff_of_true (by simp [Val.set, save, hd]) fun h => by cases h
  | str t => exact iff_of_true (by simp [Val.set, save, hd]) fun h => by cases h

/-- An item added marks the bag; a full bag stays as it is. -/
theorem CItemCtrl.addItemObj_cases (o : CItem) (c : CItemCtrl) :
    (safeCall (addItemObj o) c).bDirty = true ∨ safeCall (addItemObj o) c = c := by
  unfold addItemObj safeCall
  rw [LuaM.exec_bind, LuaM.exec_get]
  cases hpos : c.validAddItemObj with
  | none =>
    right
    simp only [hpos]
    rfl
  | some iPos =>
    left
    simp only [hpos]
    rfl

/-- Putting back an item leaves what the bag saves iff it leaves what the item saves. -/
theorem CItemCtrl.save_update {c : CItemCtrl} {iPos : Int} {o : CItem} (ho : c.mItemList iPos = some o) (o' : CItem) :
    (BlockData.items (save { c with mItemList := update c.mItemList iPos (some o') })).content =
      (BlockData.items c.save).content ↔ o'.save.content = o.save.content := by
  rw [BlockData.content_items]
  constructor
  · intro h
    simpa [save, ho] using h iPos
  · intro h i
    by_cases hi : i = iPos
    · subst hi
      simpa [save, ho] using h
    · simp [save, update_of_ne hi]

theorem CPlayer.save_onItem {p : CPlayer} {iPos : Int} {o : CItem} (ho : p.oItemCtrl.mItemList iPos = some o)
    (x : LuaM CItem PUnit) :
    (BlockData.items (safeCall (onItem iPos o x) p).oItemCtrl.save).content =
      (BlockData.items p.oItemCtrl.save).content ↔ (safeCall x o).save.content = o.save.content :=
  CItemCtrl.save_update ho _

/-- What `Use` has compared can be added to. -/
theorem CItem.addAmount_completes {d : Daobiao} {o : CItem} {iCost : Int} (hu : o.Uses d iCost) (iAdd : Int) :
    Completes (addAmount d iAdd) o := by
  obtain ⟨-, hcost, hvalid⟩ := hu
  unfold getCostAmount at hcost
  unfold validUse getCostAmount at hvalid
  cases hc : o.getConfig d with
  | error e => rw [hc] at hcost; cases hcost
  | ok mConfig =>
    rw [hc] at hvalid
    have hmax : getMaxAmount d { o with bDirty := true } = .ok (mConfig.maxAmount.getD 99).toInt := by
      show (o.getConfig d).map _ = _
      rw [hc]
      rfl
    cases ha : o.iAmount with
    | num i =>
      rw [Completes, exec_addAmount hmax (congrArg Val.toNumber ha)]
    | nil => rw [ha] at hvalid; cases hvalid
    | bool b => rw [ha] at hvalid; cases hvalid
    | str t => rw [ha] at hvalid; cases hvalid
    | tbl l => rw [ha] at hvalid; cases hvalid

namespace CPlayer

/-- `Use` of an item with a `TrueUse` changes the item, and then the experience. -/
theorem useOf_eq (bOnline : Bool) {d : Daobiao} {o : CItem} {iCost : Int} (hu : o.Uses d iCost) (iPos : Int)
    (p : CPlayer) : ∃ sLogName, (useOf bOnline d iPos o).exec p =
      (onActive (CActiveCtrl.rewardExpOf bOnline d (wrap (iCost * 1000)) sLogName .nil)).exec
        (safeCall (onItem iPos o (CItem.addAmount d (wrap (-iCost)))) p) := by
  obtain ⟨hsid, hcost, hvalid⟩ := hu
  obtain ⟨sLogName, hname⟩ : ∃ sLogName, o.logName d = .ok sLogName := by
    unfold CItem.getCostAmount at hcost
    unfold CItem.logName
    cases hc : o.getConfig d with
    | error e => rw [hc] at hcost; cases hcost
    | ok mConfig => exact ⟨mConfig.name, rfl⟩
  have hadd : ((onItem iPos o (CItem.addAmount d (wrap (-iCost)))).exec p).1 = .ok ⟨⟩ :=
    CItem.addAmount_completes ⟨hsid, hcost, hvalid⟩ (wrap (-iCost))
  refine ⟨sLogName, ?_⟩
  unfold useOf trueUseOf safeCall
  rw [LuaM.exec_bind, LuaM.exec_lift, hvalid, hsid]
  show (LuaM.lift (o.getCostAmount d) >>= _ : LuaM CPlayer PUnit).exec p = _
  rw [LuaM.exec_bind, LuaM.exec_lift, hcost]
  simp only
  rw [LuaM.exec_bind, LuaM.exec_lift, hname]
  simp only
  rw [LuaM.exec_bind]
  generalize hx : (onItem iPos o (CItem.addAmount d (wrap (-iCost)))).exec p = x at hadd ⊢
  obtain ⟨r, q⟩ := x
  rw [show r = .ok ⟨⟩ from hadd]

theorem useOf_eq_self (bOnline : Bool) {d : Daobiao} {o : CItem} (hu : ∀ iCost, ¬ o.Uses d iCost) (iPos : Int)
    (p : CPlayer) : safeCall (useOf bOnline d iPos o) p = p := by
  unfold useOf safeCall
  rw [LuaM.exec_bind, LuaM.exec_lift]
  cases hv : o.validUse d with
  | error e => rfl
  | ok b =>
    cases b with
    | false => rfl
    | true =>
      show ((trueUseOf bOnline d iPos o).exec p).2 = p
      unfold trueUseOf
      split
      · next hsid =>
        cases hc : o.getCostAmount d with
        | error e => rfl
        | ok iCost => exact absurd ⟨hsid, hc, hv⟩ (hu iCost)
      · rfl

theorem use_eq {d : Daobiao} {o : CItem} {iCost : Int} (hu : o.Uses d iCost) (iPos : Int) (p : CPlayer) :
    ∃ sLogName, safeCall (use d iPos o) p =
      safeCall (onActive (CActiveCtrl.rewardExp d (wrap (iCost * 1000)) sLogName .nil))
        (safeCall (onItem iPos o (CItem.addAmount d (wrap (-iCost)))) p) := by
  obtain ⟨sLogName, heq⟩ := useOf_eq true hu iPos p
  exact ⟨sLogName, congrArg Prod.snd heq⟩

theorem use_eq_self {d : Daobiao} {o : CItem} (hu : ∀ iCost, ¬ o.Uses d iCost) (iPos : Int) (p : CPlayer) :
    safeCall (use d iPos o) p = p :=
  useOf_eq_self true hu iPos p

end CPlayer

end RoundGame.World
