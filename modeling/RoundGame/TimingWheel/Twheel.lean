import Mathlib.Algebra.Ring.Nat
import Mathlib.Logic.Function.Basic
import RoundGame.Lib.Timers

/-!
# The timing wheel

`twheel.c` keeps its timers in lists: `near`, one for each of the `TIME_NEAR` next ticks, and `far`, four levels of
`TIME_FAR` lists each for ever longer spans of time. When the clock comes to a new span, its list is emptied and its
nodes are filed anew.

`curr_time` and the time of a node are `uint32_t`, `start_time` is `uint64_t`. A callback is a function, never `NULL`
(`lua-twheel.c` passes `timer_callback`), with its argument. `timewheel_execute` calls those of a list one after the
other (`Timers.callAll`), and `timewheel_update` makes `diff` rounds of `timewheel_shift` and `timewheel_execute`
(`Timers.rounds`): before its 32-bit counter could come round, the clock would pass `MAX_TIME`. An operation is `none`
where an assertion fails or where the C code would leave `far`.
-/

namespace RoundGame.TimingWheel

open Function Timers

def TIME_NEAR_SHIFT : Nat := 8

def TIME_NEAR_MASK : Nat := 2 ^ TIME_NEAR_SHIFT - 1

def TIME_FAR_SHIFT : Nat := 6

def TIME_FAR_MASK : Nat := 2 ^ TIME_FAR_SHIFT - 1

def MAX_DELAY_TIME : Nat := 8 * 24 * 3600 * 1000

def MAX_TIME : Nat := 2 ^ 32 - MAX_DELAY_TIME - 1

structure TimeNode (κ : Type) where
  time : Nat
  callback : κ

structure TimeWheel (κ : Type) where
  curr_time : Nat
  start_time : Nat
  near : Nat → List (TimeNode κ)
  far : Nat → Nat → List (TimeNode κ)

/-- A list of the wheel. -/
inductive Slot
  | near (k : Nat)
  | far (i k : Nat)
  deriving DecidableEq

/-- The loop of `timewheel_add_node`, with `n` rounds left: the level, and `t2` after as many shifts. -/
def farLoop : Nat → Nat → Nat → Nat → Nat × Nat
  | 0, i, _, t2 => (i, t2)
  | n + 1, i, t1, t2 =>
    if t1 ||| TIME_FAR_MASK = t2 ||| TIME_FAR_MASK then (i, t2)
    else farLoop n (i + 1) (t1 >>> TIME_FAR_SHIFT) (t2 >>> TIME_FAR_SHIFT)

/-- The list in which `timewheel_add_node` puts a node. -/
def slotOf (curr_time delay_time : Nat) : Slot :=
  if delay_time ||| TIME_NEAR_MASK = curr_time ||| TIME_NEAR_MASK then .near (delay_time &&& TIME_NEAR_MASK)
  else
    let (i, t2) := farLoop 4 0 (curr_time >>> TIME_NEAR_SHIFT) (delay_time >>> TIME_NEAR_SHIFT)
    .far i (t2 &&& TIME_FAR_MASK)

/-- The loop of `timewheel_shift`: the list that is emptied. A `uint32_t` is 0 after six rounds. -/
def shiftLoop : Nat → Nat → Nat → Option (Nat × Nat)
  | 0, _, _ => none
  | n + 1, t, level =>
    if t = 0 then none
    else if t &&& TIME_FAR_MASK ≠ 0 then some (level, t &&& TIME_FAR_MASK)
    else shiftLoop n (t >>> TIME_FAR_SHIFT) (level + 1)

/-- The number of rounds of `timewheel_update`. -/
def updateRounds (start_time curr_time t : Nat) : Option Nat :=
  if t < start_time then none else some ((t + 2 ^ 64 - (start_time + curr_time) % 2 ^ 64) % 2 ^ 64)

namespace TimeWheel

variable {κ : Type}

/-- `timewheel_create` -/
def create (t : Nat) : TimeWheel κ := ⟨0, t, fun _ => [], fun _ _ => []⟩

def slot (tw : TimeWheel κ) : Slot → List (TimeNode κ)
  | .near k => tw.near k
  | .far i k => tw.far i k

def setSlot (tw : TimeWheel κ) (x : Slot) (l : List (TimeNode κ)) : TimeWheel κ :=
  match x with
  | .near k => { tw with near := update tw.near k l }
  | .far i k => { tw with far := update tw.far i (update (tw.far i) k l) }

/-- The slot is one of the four levels of `far`, or of `near`. -/
def inRange : Slot → Bool
  | .near _ => true
  | .far i _ => i < 4

/-- `timewheel_add_node` -/
def addNode (tw : TimeWheel κ) (node : TimeNode κ) : Option (TimeWheel κ) :=
  let x := slotOf tw.curr_time node.time
  if inRange x then some (tw.setSlot x (tw.slot x ++ [node])) else none

def addNodes : TimeWheel κ → List (TimeNode κ) → Option (TimeWheel κ)
  | tw, [] => some tw
  | tw, n :: l => (tw.addNode n).bind fun tw' => addNodes tw' l

/-- `timewheel_shift` -/
def shift (tw : TimeWheel κ) : Option (TimeWheel κ) :=
  let t := (tw.curr_time + 1) % 2 ^ 32
  let tw := { tw with curr_time := t }
  if MAX_TIME < t then none
  else if t &&& TIME_NEAR_MASK ≠ 0 then some tw
  else
    match shiftLoop 6 (t >>> TIME_NEAR_SHIFT) 0 with
    | none => some tw
    | some (level, k) =>
      if inRange (.far level k) then (tw.setSlot (.far level k) []).addNodes (tw.far level k) else none

/-- The first half of `timewheel_execute`. -/
def detach (tw : TimeWheel κ) : List κ × TimeWheel κ :=
  let x := Slot.near (tw.curr_time &&& TIME_NEAR_MASK)
  ((tw.slot x).map TimeNode.callback, tw.setSlot x [])

/-- `timewheel_add_time` -/
def addTime (tw : TimeWheel κ) (callback : κ) (t : Nat) : Option (TimeWheel κ) :=
  if t ≤ MAX_DELAY_TIME ∧ 0 < t then tw.addNode ⟨(tw.curr_time + t) % 2 ^ 32, callback⟩ else none

/-- The wheel as a store of timers. -/
def store : Store (TimeWheel κ) κ where
  now tw := tw.curr_time
  add := addTime
  todo tw t := updateRounds tw.start_time tw.curr_time t
  shift := shift
  detach := detach

end TimeWheel

end RoundGame.TimingWheel
