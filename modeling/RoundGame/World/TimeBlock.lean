import RoundGame.World.Player

/-!
# The time blocks

`timeblock.lua`: variables that are kept for a day, a week, a month or a time of their own. The blocks inherit from
`CBaseObj`, which has no `Dirty`, so each operation that marks its block as changed raises there, after what it has
assigned by then. `m_iTimeNo` is assigned by `New` only; where an operation compares it with the clock, `bOther` says
whether the two differ.
-/

namespace RoundGame.World

open Lua

/-- `self:Dirty()` on an object of a class that inherits from `CBaseObj`. -/
def noDirty {σ : Type} : LuaM σ PUnit := throw "attempt to call a nil value (method 'Dirty')"

/-! ## `CToday`, `CWeek` and `CMonth` -/

namespace CToday

def set (sKey : Key) (rVal : Val) : LuaM CToday PUnit := do
  let mData ← LuaM.lift ((← get).mData.set sKey rVal)
  modify fun c => { c with mData := mData }
  noDirty

def del (sKey : Key) : LuaM CToday PUnit := do
  let mData ← LuaM.lift ((← get).mData.set sKey .nil)
  modify fun c => { c with mData := mData }

def validate (bOther : Bool) : LuaM CToday PUnit := do
  if bOther then
    modify fun c => { c with mData := .tbl [] }
  noDirty

def query (bOther : Bool) (sKey : Key) (rDefault : Val) : LuaM CToday Val := do
  validate bOther
  let v ← LuaM.lift ((← get).mData.get sKey)
  return if v.truthy then v else rDefault

/-- The message of the `assert` is the key. -/
def add (bOther : Bool) (sKey : Key) (iVal : Val) : LuaM CToday PUnit := do
  let iOld ← query bOther sKey (.num 0)
  match iOld with
  | .num i =>
    let n ← LuaM.lift iVal.toNumber
    set sKey (.num (i + n))
    noDirty
  | _ => throw "assertion failed!"

end CToday

/-! ## `CTemp` -/

namespace CTemp

/-- `iTime` is what `GetTimeNo` returns. -/
def validate (iTime : Int) (sKey : Key) : LuaM CTemp PUnit := do
  if !(← LuaM.lift ((← get).mData.get sKey)).truthy then return
  let t ← LuaM.lift ((← get).mTime.get sKey)
  match t with
  | .num n =>
    if iTime < n then
      let mData ← LuaM.lift ((← get).mData.set sKey .nil)
      modify fun c => { c with mData := mData }
      let mTime ← LuaM.lift ((← get).mTime.set sKey .nil)
      modify fun c => { c with mTime := mTime }
    noDirty
  | t => throw ("attempt to compare number with " ++ t.typeName)

def set (iTime : Int) (sKey : Key) (rVal : Val) (iDelay : Int) : LuaM CTemp PUnit := do
  if iDelay ≤ 0 then throw "assertion failed!"
  validate iTime sKey
  noDirty
  if (← LuaM.lift ((← get).mData.get sKey)).truthy then
    let mData ← LuaM.lift ((← get).mData.set sKey rVal)
    modify fun c => { c with mData := mData }
  else
    let mData ← LuaM.lift ((← get).mData.set sKey rVal)
    modify fun c => { c with mData := mData }
    let mTime ← LuaM.lift ((← get).mTime.set sKey (.num (iTime + iDelay)))
    modify fun c => { c with mTime := mTime }

def reset (iTime : Int) (sKey : Key) (rVal : Val) (iDelay : Int) : LuaM CTemp PUnit := do
  if iDelay ≤ 0 then throw "assertion failed!"
  let mData ← LuaM.lift ((← get).mData.set sKey rVal)
  modify fun c => { c with mData := mData }
  let mTime ← LuaM.lift ((← get).mTime.set sKey (.num (iTime + iDelay)))
  modify fun c => { c with mTime := mTime }
  noDirty

def addDelay (sKey : Key) (iDelay : Int) : LuaM CTemp PUnit := do
  let t ← LuaM.lift ((← get).mTime.get sKey)
  if t.truthy then
    let n ← LuaM.lift t.toNumber
    let mTime ← LuaM.lift ((← get).mTime.set sKey (.num (n + iDelay)))
    modify fun c => { c with mTime := mTime }
  noDirty

def delete (sKey : Key) : LuaM CTemp PUnit := do
  let mData ← LuaM.lift ((← get).mData.set sKey .nil)
  modify fun c => { c with mData := mData }
  let mTime ← LuaM.lift ((← get).mTime.set sKey .nil)
  modify fun c => { c with mTime := mTime }
  noDirty

end CTemp

/-! ## As parts of the time control -/

namespace CTimeCtrl

/-- Code on `CToday`, `CWeek` or `CMonth`; `k` is not the key of `CTemp`. -/
def onDay (k : TimeKey) (x : LuaM CToday PUnit) : LuaM CTimeCtrl PUnit :=
  match k with
  | .todayctrl => x.within CTimeCtrl.today fun t c => { c with today := t }
  | .weekctrl => x.within CTimeCtrl.week fun t c => { c with week := t }
  | .monthctrl => x.within CTimeCtrl.month fun t c => { c with month := t }
  | .tempctrl => pure ⟨⟩

def onTemp (x : LuaM CTemp PUnit) : LuaM CTimeCtrl PUnit := x.within CTimeCtrl.temp fun t c => { c with temp := t }

end CTimeCtrl

end RoundGame.World
