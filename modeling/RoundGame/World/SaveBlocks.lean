import RoundGame.Lib.LuaContent
import RoundGame.World.TimeBlock

/-!
# Saving the blocks of a player

`CDataCtrl:CheckSaveDb` sends a block that is marked as changed to gamedb and unmarks it; `CPlayer:CheckSaveDb` calls it
for eight controls in a row.

- No module of a control requires `base.interactive`, so each `SaveDb` raises before anything is sent, and before
  `UnDirty` (`keeps_checkBlock`).
- Four of the eight controls are never constructed, and the time blocks have no `IsDirty`, so `CPlayer:CheckSaveDb`
  always raises (`checkSaveDb_raises`).
- It flushes what is marked iff nothing is (`flushed_iff`).
-/

namespace RoundGame.World

open Lua

inductive Block
  | base | active | item | time
  deriving DecidableEq

/-- The names that `SaveDb` saves the blocks under. -/
def Block.name : Block → String
  | .base => "basectrl"
  | .active => "activectrl"
  | .item => "itemctrl"
  | .time => "timectrl"

/-- What the `Save` of a block returns. The bag is a table of positions. -/
inductive BlockData
  | fields (mSave : Val)
  | items (mItemData : Int → Option Val)

namespace BlockData

/-- The position that a key writes as a decimal. -/
def position : Key → Option Int
  | .int _ => none
  | .str s => (numeral s).filter fun iPos => decide (toString iPos = s)

/-- What `itemdata` has under a key. -/
def itemAt (mItemData : Int → Option Val) (k : Key) : Val := ((position k).bind mItemData).getD .nil

/-- What the data hold under a path of keys; the bag is `{itemdata = {...}}`. -/
def content : BlockData → List Key → Leaf
  | fields mSave, ks => mSave.content ks
  | items _, [] => .table
  | items _, [k] => if k = .str "itemdata" then .table else .nil
  | items mItemData, k :: k' :: ks => if k = .str "itemdata" then (itemAt mItemData k').content ks else .nil

theorem position_eq_some {k : Key} {iPos : Int} : position k = some iPos ↔ k = .str (toString iPos) := by
  cases k with
  | int i => simp [position]
  | str s =>
    simp only [position, Option.filter_eq_some_iff, decide_eq_true_eq, Key.str.injEq]
    constructor
    · exact fun h => h.2.symm
    · rintro rfl
      exact ⟨numeral_toString iPos, rfl⟩

theorem itemAt_toString (mItemData : Int → Option Val) (iPos : Int) :
    itemAt mItemData (.str (toString iPos)) = (mItemData iPos).getD .nil := by
  rw [itemAt, position_eq_some.2 rfl, Option.bind_some]

/-- What is under a key is an item at the position that the key writes. -/
theorem exists_of_itemAt {mItemData : Int → Option Val} {k : Key} (h : itemAt mItemData k ≠ .nil) :
    ∃ iPos v, k = .str (toString iPos) ∧ mItemData iPos = some v := by
  unfold itemAt at h
  cases hk : position k with
  | none =>
    rw [hk] at h
    exact absurd rfl h
  | some iPos =>
    rw [hk, Option.bind_some] at h
    cases hv : mItemData iPos with
    | none =>
      rw [hv] at h
      exact absurd rfl h
    | some v => exact ⟨iPos, v, position_eq_some.1 hk, hv⟩

/-- Two bags hold the same iff the items at each position do. -/
theorem content_items {f g : Int → Option Val} : (items f).content = (items g).content ↔
    ∀ iPos, ((f iPos).getD .nil).content = ((g iPos).getD .nil).content := by
  constructor
  · intro h iPos
    funext ks
    have hpos := congrFun h (.str "itemdata" :: .str (toString iPos) :: ks)
    simpa only [content, if_pos, itemAt_toString] using hpos
  · intro h
    have hitem : ∀ k, (itemAt f k).content = (itemAt g k).content := by
      intro k
      unfold itemAt
      cases position k with
      | none => rfl
      | some iPos => exact h iPos
    funext ks
    match ks with
    | [] => rfl
    | [k] => rfl
    | k :: k' :: ks => simp only [content, hitem]

end BlockData

/-- The order in which `pairs` visits `m_mCtrl`. -/
structure CtrlOrder where
  order : List TimeKey
  perm : order.Perm [.todayctrl, .weekctrl, .monthctrl, .tempctrl]

/-- The argument of a `SaveOnlineCtrl` message. -/
structure Sent where
  pid : Pid
  name : String
  data : BlockData

/-! ## `Save` -/

def CBaseCtrl.save (c : CBaseCtrl) : Val :=
  .tbl [(.str "school", c.iSchool), (.str "sex", c.iSex), (.str "icon", c.iIcon), (.str "model", c.mModel)]

def CActiveCtrl.save (c : CActiveCtrl) : Val := .tbl [(.str "exp", c.iExp), (.str "grade", c.iGrade)]

def CItem.save (o : CItem) : Val :=
  .tbl [(.str "data", o.mData), (.str "sid", o.iSid), (.str "amount", o.iAmount)]

def CItemCtrl.save (c : CItemCtrl) : Int → Option Val := fun iPos => (c.mItemList iPos).map CItem.save

def CToday.save (c : CToday) : Val := .tbl [(.str "data", c.mData)]

def CTemp.save (c : CTemp) : Val := .tbl [(.str "data", c.mData), (.str "time", c.mTime)]

def CTimeCtrl.save (c : CTimeCtrl) : Val :=
  .tbl [(.str "todayctrl", c.today.save), (.str "weekctrl", c.week.save), (.str "monthctrl", c.month.save),
    (.str "tempctrl", c.temp.save)]

/-! ## `IsDirty` and `UnDirty` -/

namespace CTimeCtrl

/-- `oTime:IsDirty()`. -/
def isDirtyKey (_k : TimeKey) : Except String Bool := .error "attempt to call a nil value (method 'IsDirty')"

def isDirty : List TimeKey → Except String Bool
  | [] => .ok false
  | k :: l => do
    if ← isDirtyKey k then return true
    isDirty l

def unDirty (order : List TimeKey) : LuaM CPlayer PUnit :=
  order.forM fun _ => throw "attempt to call a nil value (method 'UnDirty')"

end CTimeCtrl

namespace CPlayer

def pid (p : CPlayer) : Block → Pid
  | .base => p.oBaseCtrl.iPid
  | .active => p.oActiveCtrl.iPid
  | .item => p.oItemCtrl.iPid
  | .time => p.oTimeCtrl.iPid

def save (p : CPlayer) : Block → BlockData
  | .base => .fields p.oBaseCtrl.save
  | .active => .fields p.oActiveCtrl.save
  | .item => .items p.oItemCtrl.save
  | .time => .fields p.oTimeCtrl.save

def isDirty (env : CtrlOrder) (p : CPlayer) : Block → Except String Bool
  | .base => .ok p.oBaseCtrl.bDirty
  | .active => .ok p.oActiveCtrl.bDirty
  | .item => .ok p.oItemCtrl.bDirty
  | .time => CTimeCtrl.isDirty env.order

/-- Whether the block, or one of the blocks nested in it, is marked as changed. -/
def bDirty (p : CPlayer) : Block → Bool
  | .base => p.oBaseCtrl.bDirty
  | .active => p.oActiveCtrl.bDirty
  | .item => p.oItemCtrl.bDirty
  | .time => p.oTimeCtrl.bDirty

def unDirty (env : CtrlOrder) : Block → LuaM CPlayer PUnit
  | .base => modify fun p => { p with oBaseCtrl := { p.oBaseCtrl with bDirty := false } }
  | .active => modify fun p => { p with oActiveCtrl := { p.oActiveCtrl with bDirty := false } }
  | .item => modify fun p => { p with oItemCtrl := { p.oItemCtrl with bDirty := false } }
  | .time => CTimeCtrl.unDirty env.order

/-! ## `CheckSaveDb` -/

/-- `interactive.send` in the modules of the controls, where `interactive` is a global that nothing assigns. -/
def interactiveSend (_mArgs : Sent) : LuaM (CPlayer × List Sent) PUnit :=
  throw "attempt to index a nil value (global 'interactive')"

def saveDb (b : Block) : LuaM (CPlayer × List Sent) PUnit := do
  let p := (← get).1
  interactiveSend ⟨p.pid b, b.name, p.save b⟩

/-- `CDataCtrl:CheckSaveDb` of a block. -/
def checkBlock (env : CtrlOrder) (b : Block) : LuaM (CPlayer × List Sent) PUnit := do
  if ← LuaM.lift ((← get).1.isDirty env b) then
    saveDb b
    (unDirty env b).within Prod.fst fun p s => (p, s.2)

/-- The fields that `CPlayer:CheckSaveDb` visits, with the blocks that `InitCtrlBlock` puts there: `NewTaskCtrl`,
`NewSummCtrl` and `NewSkillCtrl` return nothing. -/
def ctrls : List (String × Option Block) :=
  [("m_oBaseCtrl", some .base), ("m_oActiveCtrl", some .active), ("m_oItemCtrl", some .item), ("m_oTaskCtrl", none),
    ("m_oSummCtrl", none), ("m_oSkillCtrl", none), ("m_oSkillCtrl", none), ("m_oTimeCtrl", some .time)]

def checkCtrl (env : CtrlOrder) (c : String × Option Block) : LuaM (CPlayer × List Sent) PUnit :=
  match c.2 with
  | some b => checkBlock env b
  | none => throw ("attempt to index a nil value (field '" ++ c.1 ++ "')")

/-- `CPlayer:CheckSaveDb`. -/
def checkSaveDb (env : CtrlOrder) : LuaM (CPlayer × List Sent) PUnit := ctrls.forM (checkCtrl env)

/-! ## What a flush should do, and when it does -/

variable {env : CtrlOrder} {p : CPlayer}

/-- The first of the time blocks raises. -/
theorem isDirty_time (env : CtrlOrder) :
    CTimeCtrl.isDirty env.order = .error "attempt to call a nil value (method 'IsDirty')" := by
  cases ho : env.order with
  | nil =>
    have hlen := env.perm.length_eq
    rw [ho] at hlen
    cases hlen
  | cons k l => rfl

theorem isDirty_ne_time {b : Block} (hb : b ≠ .time) : p.isDirty env b = .ok (p.bDirty b) := by
  cases b with
  | base => rfl
  | active => rfl
  | item => rfl
  | time => exact absurd rfl hb

/-- What `CheckSaveDb` of a block does: it raises, or the block is not marked. -/
theorem checkBlock_exec (env : CtrlOrder) (b : Block) (p : CPlayer) (l : List Sent) :
    (∃ e, (checkBlock env b).exec (p, l) = (.error e, (p, l))) ∨
      p.bDirty b = false ∧ b ≠ .time ∧ (checkBlock env b).exec (p, l) = (.ok ⟨⟩, (p, l)) := by
  by_cases hb : b = .time
  · subst hb
    refine Or.inl ⟨"attempt to call a nil value (method 'IsDirty')", ?_⟩
    unfold checkBlock
    rw [LuaM.exec_bind, LuaM.exec_get]
    show (LuaM.lift (CTimeCtrl.isDirty env.order) >>= _ : LuaM (CPlayer × List Sent) PUnit).exec (p, l) = _
    rw [isDirty_time]
    rfl
  · have hlift : ∀ g : Bool → LuaM (CPlayer × List Sent) PUnit,
        (LuaM.lift (p.isDirty env b) >>= g).exec (p, l) = (g (p.bDirty b)).exec (p, l) := by
      intro g
      rw [isDirty_ne_time hb]
      rfl
    cases hd : p.bDirty b with
    | true =>
      refine Or.inl ⟨"attempt to index a nil value (global 'interactive')", ?_⟩
      unfold checkBlock
      rw [LuaM.exec_bind, LuaM.exec_get]
      simp only
      rw [hlift, hd]
      rfl
    | false =>
      refine Or.inr ⟨rfl, hb, ?_⟩
      unfold checkBlock
      rw [LuaM.exec_bind, LuaM.exec_get]
      simp only
      rw [hlift, hd]
      rfl

/-- It changes no block and sends nothing. -/
theorem keeps_checkBlock (env : CtrlOrder) (b : Block) : Keeps id (checkBlock env b) := by
  intro s
  rcases checkBlock_exec env b s.1 s.2 with ⟨e, he⟩ | ⟨-, -, he⟩
  · exact congrArg Prod.snd he
  · exact congrArg Prod.snd he

theorem keeps_checkSaveDb (env : CtrlOrder) : Keeps id (checkSaveDb env) := by
  refine Keeps.forM (fun c => ?_) ctrls
  unfold checkCtrl
  cases c.2 with
  | some b => exact keeps_checkBlock env b
  | none => exact Keeps.throw _

/-- `CPlayer:CheckSaveDb` always raises, at `m_oTaskCtrl` at the latest. -/
theorem checkSaveDb_raises (env : CtrlOrder) (p : CPlayer) (l : List Sent) :
    ∃ e, (checkSaveDb env).exec (p, l) = (.error e, (p, l)) := by
  have hcons : ∀ (c : String × Option Block) cs, ((c :: cs).forM (checkCtrl env)) =
      (checkCtrl env c >>= fun _ => cs.forM (checkCtrl env)) := fun _ _ => rfl
  have hgo : ∀ (b : Block) f cs, (∃ e, (cs.forM (checkCtrl env)).exec (p, l) = (.error e, (p, l))) →
      ∃ e, (((f, some b) :: cs).forM (checkCtrl env)).exec (p, l) = (.error e, (p, l)) := by
    rintro b f cs ⟨e, he⟩
    rw [hcons, LuaM.exec_bind]
    rcases checkBlock_exec env b p l with ⟨e', he'⟩ | ⟨-, -, he'⟩
    · exact ⟨e', by rw [show checkCtrl env (f, some b) = checkBlock env b from rfl, he']⟩
    · exact ⟨e, by rw [show checkCtrl env (f, some b) = checkBlock env b from rfl, he']; exact he⟩
  exact hgo .base _ _ (hgo .active _ _ (hgo .item _ _ ⟨_, rfl⟩))

/-- What `CheckSaveDb` should make of the player `p`, when it leaves the player `r.1` and has sent `r.2`. -/
structure Flushed (p : CPlayer) (r : CPlayer × List Sent) : Prop where
  /-- Each block marked is sent once, under its own name and with its data. -/
  sent : ∀ b, p.bDirty b = true → (r.2.filter fun m => m.name = b.name) = [⟨p.pid b, b.name, p.save b⟩]
  /-- No other block is sent. -/
  notSent : ∀ b, p.bDirty b = false → ∀ m ∈ r.2, m.name ≠ b.name
  /-- A block sent is not marked any more. -/
  clean : ∀ b, ∀ m ∈ r.2, m.name = b.name → r.1.bDirty b = false
  /-- A block marked that is not sent stays marked. -/
  kept : ∀ b, p.bDirty b = true → (∀ m ∈ r.2, m.name ≠ b.name) → r.1.bDirty b = true

/-- **`CPlayer:CheckSaveDb` flushes what is marked** iff no block is marked. -/
theorem flushed_iff (env : CtrlOrder) (p : CPlayer) :
    Flushed p (safeCall (checkSaveDb env) (p, [])) ↔ ∀ b, p.bDirty b = false := by
  rw [show safeCall (checkSaveDb env) (p, []) = (p, []) from keeps_checkSaveDb env (p, [])]
  constructor
  · intro h b
    by_contra hb
    have hsent := h.sent b (by simpa using hb)
    cases hsent
  · intro h
    refine ⟨?_, ?_, ?_, ?_⟩
    · intro b hb
      rw [h b] at hb
      cases hb
    · intro b _ m hm
      cases hm
    · intro b m hm
      cases hm
    · intro b hb
      rw [h b] at hb
      cases hb

/-- A player whose active block alone is marked: it is not sent. -/
theorem not_flushed : ¬ Flushed { new 1001 ⟨"ann", 1, 5, none⟩ with oActiveCtrl := ⟨1001, .num 10, .num 0, true⟩ }
    (safeCall (checkSaveDb ⟨[.todayctrl, .weekctrl, .monthctrl, .tempctrl], List.Perm.refl _⟩)
      ({ new 1001 ⟨"ann", 1, 5, none⟩ with oActiveCtrl := ⟨1001, .num 10, .num 0, true⟩ }, [])) := by
  intro h
  have hsent := h.sent .active rfl
  cases hsent

end CPlayer

end RoundGame.World
