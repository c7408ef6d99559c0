import Mathlib.Logic.Function.Basic
import RoundGame.Lib.StepSys
import RoundGame.World.SaveBlocks

/-!
# Runs of the time blocks

What the blocks of `timeblock.lua` are for: a variable of `CTemp` lives until it expires, one of `CToday`, `CWeek` or
`CMonth` until its period ends. A run goes through the code and through these variables side by side.

- `CTemp.Op`: the operations of `CTemp` with what they mean for a variable. All but `Query`, and the saving and loading
  of a block, raise where they mark the block, so a run goes right iff it has no others (`CTemp.lives_iff`);
- `CToday.Op`: those of the other three blocks. Here `Query` marks the block as well, and `Del` does not
  (`CToday.resets_iff`).
-/

namespace RoundGame.World

open Lua

/-! ## `CTemp` -/

namespace CTemp

def new : CTemp := ⟨.tbl [], .tbl [], false⟩

def query (iTime : Int) (sKey : Key) (rDefault : Val) : LuaM CTemp Val := do
  validate iTime sKey
  let v ← LuaM.lift ((← get).mData.get sKey)
  return if v.truthy then v else rDefault

/-- `Save`, and `Load` into a new block. -/
def saveLoad : LuaM CTemp PUnit := do
  let m := (← get).save
  modify fun _ => new
  load m

inductive Op
  | set (sKey : Key) (rVal : Val) (iDelay : Int)
  | reset (sKey : Key) (rVal : Val) (iDelay : Int)
  | addDelay (sKey : Key) (iDelay : Int)
  | delete (sKey : Key)
  | query (sKey : Key) (rDefault : Val)
  | saveLoad

/-- The variables: the value that was stored last, and when it expires. -/
abbrev Vars := Key → Option (Val × Int)

/-- A variable that has not expired. -/
def live (m : Vars) (iTime : Int) (sKey : Key) : Option (Val × Int) := (m sKey).filter fun v => iTime < v.2

namespace Op

/-- The code of an operation at the time `iTime`. -/
def code (iTime : Int) : Op → LuaM CTemp Val
  | set sKey rVal iDelay => do
    CTemp.set iTime sKey rVal iDelay
    return .nil
  | reset sKey rVal iDelay => do
    CTemp.reset iTime sKey rVal iDelay
    return .nil
  | addDelay sKey iDelay => do
    CTemp.addDelay sKey iDelay
    return .nil
  | delete sKey => do
    CTemp.delete sKey
    return .nil
  | query sKey rDefault => CTemp.query iTime sKey rDefault
  | saveLoad => do
    CTemp.saveLoad
    return .nil

/-- What an operation means for the variables. `Set` on a live one keeps its expiry. -/
def next (iTime : Int) (m : Vars) : Op → Vars
  | set sKey rVal iDelay =>
    Function.update m sKey (some (rVal, ((live m iTime sKey).map Prod.snd).getD (iTime + iDelay)))
  | reset sKey rVal iDelay => Function.update m sKey (some (rVal, iTime + iDelay))
  | addDelay sKey iDelay => Function.update m sKey ((live m iTime sKey).map fun v => (v.1, v.2 + iDelay))
  | delete sKey => Function.update m sKey none
  | query _ _ => m
  | saveLoad => m

/-- What an operation should return. -/
def answer (iTime : Int) (m : Vars) : Op → Val
  | query sKey rDefault => ((live m iTime sKey).map Prod.fst).getD rDefault
  | _ => .nil

/-- The operations that do not change a variable. -/
def Reads : Op → Prop
  | query _ _ => True
  | saveLoad => True
  | _ => False

end Op

/-- A block and its variables after an operation, whether it raised or not. -/
def step (s : CTemp × Vars) (e : Int × Op) : Option (CTemp × Vars) :=
  some (safeCall (e.2.code e.1) s.1, e.2.next e.1 s.2)

/-- The operation does not raise, and returns what it should. -/
def Right (s : CTemp × Vars) (e : Int × Op) : Prop := ((e.2.code e.1).exec s.1).1 = .ok (e.2.answer e.1 s.2)

/-- A new block, without variables. -/
def start : CTemp × Vars := (new, fun _ => none)

theorem step_of_reads {iTime : Int} {op : Op} (h : op.Reads) : step start (iTime, op) = some start := by
  cases op with
  | query sKey rDefault => rfl
  | saveLoad => rfl
  | set sKey rVal iDelay => exact h.elim
  | reset sKey rVal iDelay => exact h.elim
  | addDelay sKey iDelay => exact h.elim
  | delete sKey => exact h.elim

/-- On a new block every operation that changes a variable raises. -/
theorem right_start (e : Int × Op) : Right start e ↔ e.2.Reads := by
  obtain ⟨iTime, op⟩ := e
  unfold Right
  cases op with
  | query sKey rDefault => exact iff_of_true rfl trivial
  | saveLoad => exact iff_of_true rfl trivial
  | set sKey rVal iDelay =>
    refine iff_of_false ?_ id
    simp only [Op.code, CTemp.set]
    split <;> intro h <;> cases h
  | reset sKey rVal iDelay =>
    refine iff_of_false ?_ id
    simp only [Op.code, CTemp.reset]
    split <;> intro h <;> cases h
  | addDelay sKey iDelay => exact iff_of_false (fun h => by cases h) id
  | delete sKey => exact iff_of_false (fun h => by cases h) id

/-- In every run from a new block, at any times, every operation goes right iff none of them changes a variable. -/
theorem lives_iff (es : List (Int × Op)) : StepSys.Along step Right start es ↔ ∀ e ∈ es, e.2.Reads := by
  have htotal : ∀ s e, (step s e).isSome := fun _ _ => rfl
  rw [← StepSys.along_iff_forall htotal start]
  refine StepSys.along_congr_of_inv (I := fun s => s = start) ?_ ?_ rfl es
  · rintro s ⟨iTime, op⟩ t rfl hright ht
    rw [step_of_reads ((right_start _).1 hright)] at ht
    exact (Option.some.inj ht).symm
  · rintro s e t rfl -
    exact right_start e

/-- A `Set` on a new block raises. -/
theorem not_lives : ¬ StepSys.Along step Right start [(0, .set (.str "k") (.num 1) 10)] := by
  intro h
  cases (h _ rfl).1

end CTemp

/-! ## `CToday`, `CWeek` and `CMonth` -/

namespace CToday

/-- The three classes. -/
inductive Span
  | today | week | month

/-- 2018-01-01 00:00:00. -/
def standard_time : Int := 1514736000

/-- `GetTimeNo` of a class, where `date` gives the year and the month that `os.date` has for a time. -/
def timeNo (date : Int → Int × Int) (iTime : Int) : Span → Int
  | .today => (iTime - standard_time) / (24 * 3600)
  | .week => (iTime - standard_time) / (7 * 24 * 3600)
  | .month => (date iTime).1 * 100 + (date iTime).2

/-- A block, and the number of the period in which `New` made it. -/
structure Timed where
  block : CToday
  iTimeNo : Int

namespace Timed

def new (iTimeNo : Int) : Timed := ⟨⟨.tbl [], false⟩, iTimeNo⟩

/-- Code of the block. -/
def onBlock {α : Type} (x : LuaM CToday α) : LuaM Timed α := x.within block fun c s => { s with block := c }

/-- `Save`, and `Load` into a new block in the period `iNow`. -/
def saveLoad (iNow : Int) : LuaM Timed PUnit := do
  let m := (← get).block.save
  modify fun _ => new iNow
  onBlock (load m)

theorem raises_onBlock {α γ : Type} {x : LuaM CToday α} (g : α → LuaM Timed γ) (s : Timed) {err : String}
    (h : (x.exec s.block).1 = .error err) : ((onBlock x >>= g).exec s).1 = .error err := by
  have hx : ((onBlock x).exec s).1 = .error err := h
  rw [LuaM.exec_bind]
  cases hr : (onBlock x).exec s with
  | mk r t =>
    rw [hr] at hx
    cases hx
    rfl

end Timed

inductive Op
  | set (sKey : Key) (rVal : Val)
  | add (sKey : Key) (iVal : Int)
  | del (sKey : Key)
  | query (sKey : Key) (rDefault : Val)
  | saveLoad

/-- The variables: the value that was stored last, and the period it belongs to. -/
abbrev Vars := Key → Option (Val × Int)

/-- A variable of the period `iNow`. -/
def current (m : Vars) (iNow : Int) (sKey : Key) : Option Val := ((m sKey).filter fun v => v.2 = iNow).map Prod.fst

namespace Op

/-- The code of an operation in the period `iNow`. -/
def code (iNow : Int) : Op → LuaM Timed Val
  | set sKey rVal => do
    Timed.onBlock (CToday.set sKey rVal)
    return .nil
  | add sKey iVal => do
    let bOther := decide (iNow ≠ (← get).iTimeNo)
    Timed.onBlock (CToday.add bOther sKey (.num iVal))
    return .nil
  | del sKey => do
    Timed.onBlock (CToday.del sKey)
    return .nil
  | query sKey rDefault => do
    let bOther := decide (iNow ≠ (← get).iTimeNo)
    Timed.onBlock (CToday.query bOther sKey rDefault)
  | saveLoad => do
    Timed.saveLoad iNow
    return .nil

/-- What an operation means for the variables; a value that is not a number is not added to. -/
def next (iNow : Int) (m : Vars) : Op → Vars
  | set sKey rVal => Function.update m sKey (some (rVal, iNow))
  | add sKey iVal =>
    match current m iNow sKey with
    | none => Function.update m sKey (some (.num iVal, iNow))
    | some (.num i) => Function.update m sKey (some (.num (i + iVal), iNow))
    | some _ => m
  | del sKey => Function.update m sKey none
  | query _ _ => m
  | saveLoad => m

/-- What an operation should return. -/
def answer (iNow : Int) (m : Vars) : Op → Val
  | query sKey rDefault => (current m iNow sKey).getD rDefault
  | _ => .nil

/-- The operations that do not mark the block. -/
def Unmarked : Op → Prop
  | del _ => True
  | saveLoad => True
  | _ => False

end Op

section Runs

variable (date : Int → Int × Int) (span : Span)

/-- A block and its variables after an operation, whether it raised or not. -/
def step (s : Timed × Vars) (e : Int × Op) : Option (Timed × Vars) :=
  some (safeCall (e.2.code (timeNo date e.1 span)) s.1, e.2.next (timeNo date e.1 span) s.2)

/-- The operation does not raise, and returns what it should. -/
def Right (s : Timed × Vars) (e : Int × Op) : Prop :=
  ((e.2.code (timeNo date e.1 span)).exec s.1).1 = .ok (e.2.answer (timeNo date e.1 span) s.2)

/-- A new block, without variables. -/
def start (iTime : Int) : Timed × Vars := (Timed.new (timeNo date iTime span), fun _ => none)

/-- `Query` of a block raises in `Validate`, whether the block is of the current period or not. -/
theorem query_raises (bOther : Bool) (sKey : Key) (rDefault : Val) (c : CToday) :
    ((query bOther sKey rDefault).exec c).1 = .error "attempt to call a nil value (method 'Dirty')" := by
  cases bOther <;> rfl

/-- `Add` raises in its `Query`. -/
theorem add_raises (bOther : Bool) (sKey : Key) (iVal : Val) (c : CToday) :
    ((add bOther sKey iVal).exec c).1 = .error "attempt to call a nil value (method 'Dirty')" := by
  cases bOther <;> rfl

/-- A block without values. -/
def Blank (s : Timed × Vars) : Prop := s.1.block = ⟨.tbl [], false⟩

theorem empty_step {s t : Timed × Vars} {e : Int × Op} (hs : Blank s) (he : e.2.Unmarked)
    (ht : step date span s e = some t) : Blank t := by
  obtain ⟨⟨c, iTimeNo⟩, m⟩ := s
  obtain ⟨iTime, op⟩ := e
  cases hs
  cases ht
  cases op with
  | del sKey => rfl
  | saveLoad => rfl
  | set sKey rVal => exact he.elim
  | add sKey iVal => exact he.elim
  | query sKey rDefault => exact he.elim

/-- On an empty block every operation that marks the block raises. -/
theorem right_iff {s : Timed × Vars} (hs : Blank s) (e : Int × Op) : Right date span s e ↔ e.2.Unmarked := by
  obtain ⟨⟨c, iTimeNo⟩, m⟩ := s
  obtain ⟨iTime, op⟩ := e
  cases hs
  unfold Right
  cases op with
  | del sKey => exact iff_of_true rfl trivial
  | saveLoad => exact iff_of_true rfl trivial
  | set sKey rVal => exact iff_of_false (fun h => by cases h) id
  | add sKey iVal =>
    refine iff_of_false (fun h => ?_) id
    have hraises := add_raises (decide (timeNo date iTime span ≠ iTimeNo)) sKey (.num iVal) ⟨.tbl [], false⟩
    have hcode := Timed.raises_onBlock (fun _ => (pure Val.nil : LuaM Timed Val)) ⟨_, iTimeNo⟩ hraises
    cases hcode.symm.trans h
  | query sKey rDefault =>
    refine iff_of_false (fun h => ?_) id
    cases (query_raises (decide (timeNo date iTime span ≠ iTimeNo)) sKey rDefault ⟨.tbl [], false⟩).symm.trans h

/-- In every run of one of the blocks from its creation, at any times, every operation goes right iff each of them is a
`Del` or saves and loads the block. -/
theorem resets_iff (iTime : Int) (es : List (Int × Op)) :
    StepSys.Along (step date span) (Right date span) (start date span iTime) es ↔ ∀ e ∈ es, e.2.Unmarked := by
  have htotal : ∀ s e, (step date span s e).isSome := fun _ _ => rfl
  rw [← StepSys.along_iff_forall htotal (start date span iTime)]
  have hstart : Blank (start date span iTime) := rfl
  refine StepSys.along_congr_of_inv (I := Blank) ?_ ?_ hstart es
  · intro s e t hs hright ht
    exact empty_step date span hs ((right_iff date span hs e).1 hright) ht
  · intro s e t hs _
    exact right_iff date span hs e

end Runs

/-- A `Query` on a new block of the day raises. -/
theorem not_resets : ¬ StepSys.Along (step (fun _ => (2018, 1)) .today) (Right (fun _ => (2018, 1)) .today)
    (start (fun _ => (2018, 1)) .today standard_time) [(standard_time, .query (.str "k") (.num 0))] := by
  intro h
  cases (h _ rfl).1

end CToday

end RoundGame.World
