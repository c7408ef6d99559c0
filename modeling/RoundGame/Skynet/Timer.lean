import Mathlib.Algebra.Ring.Int.Defs
import Mathlib.Algebra.Ring.Nat
import RoundGame.Lib.StepSys
import RoundGame.Lib.Wheel
import RoundGame.TimingWheel.Placement

/-!
# The timer of skynet

`skynet_timer.c`: a timer of 32 bits with lists for the next 256 ticks (`near`) and four levels of 64 lists (`t`). Other
than the wheel of `twheel.c` it goes on when the clock comes round.

One thread updates the timer, any others add timeouts; the lock is free between the steps of the update, while the
events of a list are dispatched (`Phase`). `out` are the events that the update dispatched, `now` those that
`skynet_timeout` answers at once.

In every run an event is dispatched by the update that makes the clock as many ticks later as the timeout says, once,
and those of one tick in the order in which they were added (`run_out`).
-/

namespace RoundGame.Skynet.Timeout

open Function Wheel StepSys

def TIME_NEAR_SHIFT : Nat := 8
def TIME_NEAR : Nat := 1 <<< TIME_NEAR_SHIFT
def TIME_LEVEL_SHIFT : Nat := 6
def TIME_LEVEL : Nat := 1 <<< TIME_LEVEL_SHIFT
def TIME_NEAR_MASK : Nat := TIME_NEAR - 1
def TIME_LEVEL_MASK : Nat := TIME_LEVEL - 1

/-! ## The timer -/

structure TimerNode (κ : Type) where
  expire : Nat
  event : κ

inductive Slot
  | near (k : Nat)
  | t (i k : Nat)
  deriving DecidableEq

structure Timer (κ : Type) where
  slot : Slot → List (TimerNode κ)
  time : Nat

variable {κ : Type}

/-- The loop of `add_node`, with `n` rounds left. -/
def levelLoop (time current_time : Nat) : Nat → Nat → Nat → Nat
  | 0, i, _ => i
  | n + 1, i, mask =>
    if time ||| (mask - 1) = current_time ||| (mask - 1) then i
    else levelLoop time current_time n (i + 1) (mask <<< TIME_LEVEL_SHIFT)

def slotOf (current_time time : Nat) : Slot :=
  if time ||| TIME_NEAR_MASK = current_time ||| TIME_NEAR_MASK then .near (time &&& TIME_NEAR_MASK)
  else
    let i := levelLoop time current_time 3 0 (TIME_NEAR <<< TIME_LEVEL_SHIFT)
    .t i ((time >>> (TIME_NEAR_SHIFT + i * TIME_LEVEL_SHIFT)) &&& TIME_LEVEL_MASK)

/-- The loop of `timer_shift`: the list that is moved. A `mask` of five rounds would not be an `int`. -/
def shiftLoop (ct : Nat) : Nat → Nat → Nat → Nat → Option (Nat × Nat)
  | 0, _, _, _ => none
  | n + 1, i, mask, time =>
    if ct &&& (mask - 1) = 0 then
      let idx := time &&& TIME_LEVEL_MASK
      if idx ≠ 0 then some (i, idx)
      else shiftLoop ct n (i + 1) (mask <<< TIME_LEVEL_SHIFT) (time >>> TIME_LEVEL_SHIFT)
    else none

/-- The list that is moved when the clock comes to `ct`. -/
def movedSlot (ct : Nat) : Option Slot :=
  if ct = 0 then some (.t 3 0)
  else (shiftLoop ct 4 0 TIME_NEAR (ct >>> TIME_NEAR_SHIFT)).map fun p => .t p.1 p.2

namespace Timer

def create : Timer κ := ⟨fun _ => [], 0⟩

def addNode (T : Timer κ) (node : TimerNode κ) : Timer κ :=
  let x := slotOf T.time node.expire
  { T with slot := update T.slot x (T.slot x ++ [node]) }

/-- `time` is positive. -/
def add (T : Timer κ) (event : κ) (time : Nat) : Timer κ := T.addNode ⟨(time + T.time) % 2 ^ 32, event⟩

/-- `link_clear` -/
def linkClear (T : Timer κ) (x : Slot) : List (TimerNode κ) × Timer κ :=
  (T.slot x, { T with slot := update T.slot x [] })

def moveList (T : Timer κ) (x : Slot) : Timer κ :=
  let (nodes, T) := T.linkClear x
  nodes.foldl addNode T

def shift (T : Timer κ) : Timer κ :=
  let ct := (T.time + 1) % 2 ^ 32
  let T := { T with time := ct }
  match movedSlot ct with
  | some x => T.moveList x
  | none => T

/-- The list that `timer_execute` looks at. -/
def current (T : Timer κ) : Slot := .near (T.time &&& TIME_NEAR_MASK)

end Timer

/-! ## Threads -/

/-- What the updating thread does without the lock. -/
inductive Phase
  | idle
  | first
  | second
  deriving DecidableEq

structure State (κ : Type) where
  timer : Timer κ
  phase : Phase
  out : List κ
  now : List κ

def start : State κ := ⟨.create, .idle, [], []⟩

/-- A round of `timer_execute`: the list is taken, to be dispatched without the lock. -/
def State.detach (s : State κ) (phase : Phase) : State κ :=
  let (nodes, T) := s.timer.linkClear s.timer.current
  { s with timer := T, phase := phase, out := s.out ++ nodes.map TimerNode.event }

/-- The loop of the second `timer_execute`. -/
def State.executeSecond (s : State κ) : State κ :=
  if s.timer.slot s.timer.current = [] then { s with phase := .idle } else s.detach .second

/-- The loop of the first `timer_execute`, and what comes after it. -/
def State.executeFirst (s : State κ) : State κ :=
  if s.timer.slot s.timer.current = [] then { s with timer := s.timer.shift }.executeSecond else s.detach .first

inductive Act (κ : Type)
  | timeout (event : κ) (time : Int)
  | update
  | resume

/-- An update is made by one thread; `time` is an `int`. -/
def State.step (s : State κ) : Act κ → Option (State κ)
  | .timeout event time =>
    if time ≤ 0 then some { s with now := s.now ++ [event] }
    else if time < 2 ^ 31 then some { s with timer := s.timer.add event time.toNat }
    else none
  | .update => if s.phase = .idle then some s.executeFirst else none
  | .resume =>
    match s.phase with
    | .idle => none
    | .first => some s.executeFirst
    | .second => some s.executeSecond

/-! ## Where an event is filed -/

/-- The ticks of one list of a level. -/
def unit (i : Nat) : Nat := 2 ^ (8 + 6 * i)

/-- The level of an event: `n` and `d` are the same above its digit, as far as there are digits. -/
def level (n d : Nat) : Nat :=
  if d / unit 1 = n / unit 1 then 0 else if d / unit 2 = n / unit 2 then 1 else if d / unit 3 = n / unit 3 then 2 else 3

/-- The list of an event for the tick `d`, at the tick `n`. Ticks are counted from the start and never come round. -/
def place (n d : Nat) : Slot :=
  if d / unit 0 = n / unit 0 then .near (d % 256) else .t (level n d) (d / unit (level n d) % 64)

/-- The lowest level whose digit is not 0; when the clock comes round, the highest one. -/
def turn (n : Nat) : Nat :=
  if n / unit 0 % 64 ≠ 0 then 0 else if n / unit 1 % 64 ≠ 0 then 1 else if n / unit 2 % 64 ≠ 0 then 2 else 3

def moved (n : Nat) : Option Slot :=
  if n % 256 ≠ 0 then none else some (.t (turn n) (n / unit (turn n) % 64))

theorem unit_values : unit 0 = 256 ∧ unit 1 = 16384 ∧ unit 2 = 1048576 ∧ unit 3 = 67108864 := by decide

theorem level_cases (n d : Nat) :
    d / 16384 = n / 16384 ∧ level n d = 0 ∨
    d / 16384 ≠ n / 16384 ∧ d / 1048576 = n / 1048576 ∧ level n d = 1 ∨
    d / 1048576 ≠ n / 1048576 ∧ d / 67108864 = n / 67108864 ∧ level n d = 2 ∨
    d / 67108864 ≠ n / 67108864 ∧ level n d = 3 := by
  obtain ⟨-, h1, h2, h3⟩ := unit_values
  rw [level, h1, h2, h3]
  split
  · omega
  · split
    · omega
    · split <;> omega

theorem turn_cases (n : Nat) :
    n / 256 % 64 ≠ 0 ∧ turn n = 0 ∨
    n / 256 % 64 = 0 ∧ n / 16384 % 64 ≠ 0 ∧ turn n = 1 ∨
    n / 256 % 64 = 0 ∧ n / 16384 % 64 = 0 ∧ n / 1048576 % 64 ≠ 0 ∧ turn n = 2 ∨
    n / 256 % 64 = 0 ∧ n / 16384 % 64 = 0 ∧ n / 1048576 % 64 = 0 ∧ turn n = 3 := by
  obtain ⟨h0, h1, h2, -⟩ := unit_values
  rw [turn, h0, h1, h2]
  split
  · omega
  · split
    · omega
    · split <;> omega

theorem place_succ {n d : Nat} (hlt : n < d) (hreach : d < n + 2 ^ 31) (h : moved (n + 1) ≠ some (place n d)) :
    place (n + 1) d = place n d := by
  obtain ⟨h0, h1, h2, h3⟩ := unit_values
  by_cases hturn : (n + 1) % 256 ≠ 0
  · -- no digit changes but the lowest
    have hlevel : level (n + 1) d = level n d := by
      rw [level, level, h1, h2, h3]
      have e1 : (n + 1) / 16384 = n / 16384 := by omega
      have e2 : (n + 1) / 1048576 = n / 1048576 := by omega
      have e3 : (n + 1) / 67108864 = n / 67108864 := by omega
      rw [e1, e2, e3]
    have e0 : (n + 1) / 256 = n / 256 := by omega
    rw [place, place, hlevel, h0, e0]
  · have hnear : ¬ d / unit 0 = n / unit 0 := by
      rw [h0]
      omega
    rw [moved, if_neg hturn, place, if_neg hnear] at h
    -- what is in the list that is moved, is in it at the level of the turn
    have hmoved : ∀ i, turn (n + 1) = i → ¬ (level n d = i ∧ d / unit i = (n + 1) / unit i) := by
      rintro i hi ⟨hl, hd⟩
      rw [hi, hl, hd] at h
      exact h rfl
    have hsame : level (n + 1) d = level n d ∧ d / 256 ≠ (n + 1) / 256 := by
      have hl := level_cases n d
      have hl' := level_cases (n + 1) d
      rcases turn_cases (n + 1) with ⟨ht, hi⟩ | ⟨ht, ht', hi⟩ | ⟨ht, ht1, ht', hi⟩ | ⟨ht, ht1, ht2, hi⟩
      · have hno := hmoved 0 hi
        rw [h0] at hno
        omega
      · have hno := hmoved 1 hi
        rw [h1] at hno
        omega
      · have hno := hmoved 2 hi
        rw [h2] at hno
        omega
      · have hno := hmoved 3 hi
        rw [h3] at hno
        omega
    rw [place, place, if_neg hnear, h0, if_neg hsame.2, hsame.1]

def scheme : Scheme Slot where
  reach := 2 ^ 31
  place := place
  moved := moved
  due n := .near (n % 256)
  place_self n := if_pos rfl
  eq_of_place {n d} hle hlt h := by
    rw [place] at h
    split at h
    · rename_i hblock
      have hdigit := Slot.near.inj h
      rw [unit_values.1] at hblock
      omega
    · cases h
  place_succ := place_succ

/-! ## The lists of the clock -/

theorem or_mask_iff {m : Nat} (k x y : Nat) (hm : m = 2 ^ k - 1) : x ||| m = y ||| m ↔ x / 2 ^ k = y / 2 ^ k := by
  rw [hm]
  exact TimingWheel.or_mask_eq_iff k x y

theorem and_mask {m : Nat} (k x : Nat) (hm : m = 2 ^ k - 1) : x &&& m = x % 2 ^ k := by
  rw [hm]
  exact Nat.and_two_pow_sub_one_eq_mod x k

theorem near_mask : TIME_NEAR - 1 = 2 ^ 8 - 1 := rfl

theorem level_mask : TIME_LEVEL_MASK = 2 ^ 6 - 1 := rfl

/-- The masks of the rounds of the loops. -/
theorem masks : TIME_NEAR <<< TIME_LEVEL_SHIFT - 1 = 2 ^ 14 - 1 ∧
    TIME_NEAR <<< TIME_LEVEL_SHIFT <<< TIME_LEVEL_SHIFT - 1 = 2 ^ 20 - 1 ∧
    TIME_NEAR <<< TIME_LEVEL_SHIFT <<< TIME_LEVEL_SHIFT <<< TIME_LEVEL_SHIFT - 1 = 2 ^ 26 - 1 := ⟨rfl, rfl, rfl⟩

theorem levelLoop_eq (t c : Nat) : levelLoop t c 3 0 (TIME_NEAR <<< TIME_LEVEL_SHIFT) =
    if t / 2 ^ 14 = c / 2 ^ 14 then 0 else if t / 2 ^ 20 = c / 2 ^ 20 then 1
    else if t / 2 ^ 26 = c / 2 ^ 26 then 2 else 3 := by
  obtain ⟨m1, m2, m3⟩ := masks
  simp only [levelLoop, or_mask_iff 14 t c m1, or_mask_iff 20 t c m2, or_mask_iff 26 t c m3]

/-- On the clock an event is where its tick belongs. -/
theorem slotOf_eq {n d : Nat} (hle : n ≤ d) (hlt : d < n + 2 ^ 31) :
    slotOf (n % 2 ^ 32) (d % 2 ^ 32) = place n d := by
  obtain ⟨h0, h1, h2, h3⟩ := unit_values
  have e0 : d % 2 ^ 32 / 2 ^ 8 = n % 2 ^ 32 / 2 ^ 8 ↔ d / unit 0 = n / unit 0 := by
    rw [h0]
    omega
  have e1 : d % 2 ^ 32 / 2 ^ 14 = n % 2 ^ 32 / 2 ^ 14 ↔ d / unit 1 = n / unit 1 := by
    rw [h1]
    omega
  have e2 : d % 2 ^ 32 / 2 ^ 20 = n % 2 ^ 32 / 2 ^ 20 ↔ d / unit 2 = n / unit 2 := by
    rw [h2]
    omega
  have e3 : d % 2 ^ 32 / 2 ^ 26 = n % 2 ^ 32 / 2 ^ 26 ↔ d / unit 3 = n / unit 3 := by
    rw [h3]
    omega
  have hlevel : levelLoop (d % 2 ^ 32) (n % 2 ^ 32) 3 0 (TIME_NEAR <<< TIME_LEVEL_SHIFT) = level n d := by
    rw [levelLoop_eq]
    simp only [e1, e2, e3, level]
  simp only [slotOf, hlevel]
  rw [TIME_NEAR_MASK, place]
  refine if_congr ((or_mask_iff 8 _ _ near_mask).trans e0) ?_ ?_
  · rw [and_mask 8 _ near_mask]
    congr 1
    omega
  · rw [and_mask 6 _ level_mask, Nat.shiftRight_eq_div_pow]
    congr 1
    have hunit : 2 ^ (TIME_NEAR_SHIFT + level n d * TIME_LEVEL_SHIFT) = unit (level n d) := by
      rw [unit, Nat.mul_comm]
      rfl
    rw [hunit]
    rcases level_cases n d with ⟨-, hl⟩ | ⟨-, -, hl⟩ | ⟨-, -, hl⟩ | ⟨-, hl⟩
    · rw [hl, h0]
      omega
    · rw [hl, h1]
      omega
    · rw [hl, h2]
      omega
    · rw [hl, h3]
      omega

theorem shiftLoop_succ (ct n i k : Nat) : shiftLoop ct (n + 1) i (2 ^ k) (ct >>> k) =
    if ct % 2 ^ k = 0 then
      if ct / 2 ^ k % 64 ≠ 0 then some (i, ct / 2 ^ k % 64) else shiftLoop ct n (i + 1) (2 ^ (k + 6)) (ct >>> (k + 6))
    else none := by
  have hdigit : ct >>> k &&& TIME_LEVEL_MASK = ct / 2 ^ k % 64 := by
    rw [and_mask 6 _ level_mask, Nat.shiftRight_eq_div_pow]
    rfl
  have hmask : 2 ^ k <<< TIME_LEVEL_SHIFT = 2 ^ (k + 6) := by
    rw [Nat.shiftLeft_eq, Nat.pow_add]
    rfl
  have htime : ct >>> k >>> TIME_LEVEL_SHIFT = ct >>> (k + 6) := (Nat.shiftRight_add ct k 6).symm
  rw [shiftLoop, and_mask k _ rfl, hmask, htime]
  simp only [hdigit]

theorem movedSlot_eq (n : Nat) : movedSlot (n % 2 ^ 32) = moved n := by
  obtain ⟨h0, h1, h2, h3⟩ := unit_values
  rw [movedSlot, moved]
  by_cases hround : n % 2 ^ 32 = 0
  · have hturn : turn n = 3 := by
      have := turn_cases n
      omega
    have hdigit : n / 67108864 % 64 = 0 := by omega
    rw [if_pos hround, if_neg (by omega), hturn, h3, hdigit]
  · have hstart : shiftLoop (n % 2 ^ 32) 4 0 TIME_NEAR ((n % 2 ^ 32) >>> TIME_NEAR_SHIFT) =
        shiftLoop (n % 2 ^ 32) 4 0 (2 ^ 8) ((n % 2 ^ 32) >>> 8) := rfl
    have d0 : n % 2 ^ 32 / 2 ^ 8 % 64 = n / 256 % 64 := by omega
    have d1 : n % 2 ^ 32 / 2 ^ (8 + 6) % 64 = n / 16384 % 64 := by omega
    have d2 : n % 2 ^ 32 / 2 ^ (8 + 6 + 6) % 64 = n / 1048576 % 64 := by omega
    have d3 : n % 2 ^ 32 / 2 ^ (8 + 6 + 6 + 6) % 64 = n / 67108864 % 64 := by omega
    rw [if_neg hround, hstart, shiftLoop_succ, d0]
    by_cases hnear : n % 256 = 0
    · rw [if_neg (not_not.2 hnear), if_pos (by omega)]
      rcases turn_cases n with ⟨ht, hi⟩ | ⟨ht, ht', hi⟩ | ⟨ht, ht1, ht', hi⟩ | ⟨ht, ht1, ht2, hi⟩
      · rw [if_pos ht, hi, h0]
        rfl
      · rw [if_neg (not_not.2 ht), shiftLoop_succ, d1, if_pos (by omega), if_pos ht', hi, h1]
        rfl
      · rw [if_neg (not_not.2 ht), shiftLoop_succ, d1, if_pos (by omega), if_neg (not_not.2 ht1), shiftLoop_succ, d2,
          if_pos (by omega), if_pos ht', hi, h2]
        rfl
      · rw [if_neg (not_not.2 ht), shiftLoop_succ, d1, if_pos (by omega), if_neg (not_not.2 ht1), shiftLoop_succ, d2,
          if_pos (by omega), if_neg (not_not.2 ht2), shiftLoop_succ, d3, if_pos (by omega), if_pos (by omega), hi, h3]
        rfl
    · rw [if_pos hnear, if_neg (by omega)]
      rfl

/-! ## Timers and wheels -/

def node (e : Nat × κ) : TimerNode κ := ⟨e.1 % 2 ^ 32, e.2⟩

/-- The timer at the tick `n`, with the lists of a wheel. -/
def ofWheel (n : Nat) (slot : Slot → List (Nat × κ)) : Timer κ := ⟨fun x => (slot x).map node, n % 2 ^ 32⟩

variable {n : Nat} {slot : Slot → List (Nat × κ)} {all q : List (Nat × κ)}

theorem map_update (x : Slot) (l : List (Nat × κ)) :
    update (fun y => (slot y).map node) x (l.map node) = fun y => (update slot x l y).map node := by
  funext y
  by_cases hy : y = x
  · rw [hy, update_self, update_self]
  · rw [update_of_ne hy, update_of_ne hy]

theorem addNode_ofWheel {e : Nat × κ} (hle : n ≤ e.1) (hlt : e.1 < n + 2 ^ 31) :
    (ofWheel n slot).addNode (node e) = ofWheel n (file scheme n slot e) := by
  have hslot : slotOf (ofWheel n slot).time (node e).expire = scheme.place n e.1 := slotOf_eq hle hlt
  have hlist : (ofWheel n slot).slot (scheme.place n e.1) ++ [node e] =
      (slot (scheme.place n e.1) ++ [e]).map node := by
    rw [List.map_append]
    rfl
  rw [Timer.addNode, hslot, hlist]
  exact congrArg (fun f => (⟨f, n % 2 ^ 32⟩ : Timer κ)) (map_update _ _)

theorem foldl_addNode {l : List (Nat × κ)} (h : ∀ e ∈ l, n ≤ e.1 ∧ e.1 < n + 2 ^ 31) :
    (l.map node).foldl Timer.addNode (ofWheel n slot) = ofWheel n (l.foldl (file scheme n) slot) := by
  induction l generalizing slot with
  | nil => rfl
  | cons e l ih =>
    obtain ⟨hle, hlt⟩ := h e List.mem_cons_self
    rw [List.map_cons, List.foldl_cons, addNode_ofWheel hle hlt]
    exact ih fun e' he' => h e' (List.mem_cons_of_mem _ he')

theorem linkClear_ofWheel (x : Slot) :
    (ofWheel n slot).linkClear x = ((slot x).map node, ofWheel n (update slot x [])) :=
  congrArg (fun f => ((slot x).map node, (⟨f, n % 2 ^ 32⟩ : Timer κ))) (map_update x [])

theorem current_ofWheel : (ofWheel n slot).current = scheme.due n := by
  have hdigit : n % 2 ^ 32 &&& TIME_NEAR_MASK = n % 256 := by
    rw [TIME_NEAR_MASK, and_mask 8 _ near_mask]
    omega
  exact congrArg Slot.near hdigit

theorem add_ofWheel {event : κ} {time : Nat} (hlt : time < 2 ^ 31) :
    (ofWheel n slot).add event time = ofWheel n (file scheme n slot (n + time, event)) := by
  have hnode : (⟨(time + n % 2 ^ 32) % 2 ^ 32, event⟩ : TimerNode κ) = node (n + time, event) := by
    rw [Nat.add_mod_mod, Nat.add_comm]
    rfl
  rw [Timer.add, ← addNode_ofWheel (Nat.le_add_right _ _) (Nat.add_lt_add_left hlt _), ← hnode]
  rfl

theorem shift_ofWheel (h : Filed scheme (n + 1) n slot q) :
    (ofWheel n slot).shift = ofWheel (n + 1) (Wheel.advance scheme (n + 1) slot) := by
  have hmoved : movedSlot ((n % 2 ^ 32 + 1) % 2 ^ 32) = scheme.moved (n + 1) := by
    rw [Nat.mod_add_mod]
    exact movedSlot_eq (n + 1)
  have htime : (⟨(ofWheel n slot).slot, (n % 2 ^ 32 + 1) % 2 ^ 32⟩ : Timer κ) = ofWheel (n + 1) slot := by
    rw [Nat.mod_add_mod]
    rfl
  have hshift : (ofWheel n slot).shift = match scheme.moved (n + 1) with
      | some x => (ofWheel (n + 1) slot).moveList x
      | none => ofWheel (n + 1) slot := by
    rw [← hmoved, ← htime]
    rfl
  rw [hshift, Wheel.advance]
  cases scheme.moved (n + 1) with
  | none => rfl
  | some x =>
    simp only [Timer.moveList, linkClear_ofWheel]
    refine foldl_addNode fun e he => ?_
    obtain ⟨hlo, hreach⟩ := h.bounds e (h.mem he).1
    exact ⟨hlo, Nat.lt_trans hreach (Nat.add_lt_add_right (Nat.lt_succ_self n) _)⟩

/-! ## Runs -/

namespace Act

/-- The ticks that a step makes. -/
def ticks : Act κ → Nat
  | update => 1
  | _ => 0

/-- The event that a step adds at the tick `n`, with the tick that it is for. -/
def deadline (n : Nat) : Act κ → List (Nat × κ)
  | timeout event time => if time ≤ 0 then [] else [(n + time.toNat, event)]
  | _ => []

/-- The event that is answered at once. -/
def atOnce : Act κ → List κ
  | timeout event time => if time ≤ 0 then [event] else []
  | _ => []

end Act

def updates (es : List (Act κ)) : Nat := (es.map Act.ticks).sum

def timeouts (n : Nat) : List (Act κ) → List (Nat × κ)
  | [] => []
  | e :: es => e.deadline n ++ timeouts (n + e.ticks) es

/-- The events for the first `n` ticks. -/
def dispatched (n : Nat) (all : List (Nat × κ)) : List κ :=
  (List.range n).flatMap fun k => (ofDeadline (k + 1) all).map Prod.snd

theorem dispatched_succ : dispatched (n + 1) all = dispatched n all ++ (ofDeadline (n + 1) all).map Prod.snd := by
  rw [dispatched, List.range_succ, List.flatMap_append, List.flatMap_singleton]
  rfl

theorem dispatched_append {l : List (Nat × κ)} (h : ∀ e ∈ l, n < e.1) :
    dispatched n (all ++ l) = dispatched n all := by
  refine List.flatMap_congr fun k hk => ?_
  have hnone : ofDeadline (k + 1) l = [] := by
    rw [List.eq_nil_iff_forall_not_mem]
    intro e he
    obtain ⟨hmem, hd⟩ := mem_ofDeadline.1 he
    have hlt := h e hmem
    have hk' := List.mem_range.1 hk
    omega
  rw [ofDeadline_append, hnone, List.append_nil]

/-- The state at the tick `n`, after the timeouts of `all`: those for later ticks are in the lists of the timer, the
others are dispatched. -/
structure Rel (s : State κ) (n : Nat) (all : List (Nat × κ)) : Prop where
  timer : ∃ slot, s.timer = ofWheel n slot ∧ Filed scheme (n + 1) n slot (all.filter fun e => n < e.1)
  phase : s.phase ≠ .first
  out : s.out = dispatched n all

variable {s t : State κ}

theorem rel_start : Rel (start : State κ) 0 [] :=
  ⟨⟨fun _ => [], rfl, filed_empty scheme 1 0⟩, fun h => Phase.noConfusion h, rfl⟩

theorem Rel.current (h : Rel s n all) : s.timer.slot s.timer.current = [] := by
  obtain ⟨slot, htimer, hfiled⟩ := h.timer
  rw [htimer, current_ofWheel]
  have hnil : slot (scheme.due n) = [] := hfiled.due_nil
  show (slot (scheme.due n)).map node = []
  rw [hnil, List.map_nil]

/-- The events of the tick are dispatched in one round. -/
theorem executeSecond_rel (htimer : s.timer = ofWheel n slot)
    (hfiled : Filed scheme n n slot (all.filter fun e => n ≤ e.1))
    (hout : s.out ++ (ofDeadline n all).map Prod.snd = dispatched n all) : Rel s.executeSecond n all := by
  have hdue : ofDeadline n (all.filter fun e => n ≤ e.1) = ofDeadline n all := by
    rw [ofDeadline, List.filter_filter]
    refine List.filter_congr fun e _ => ?_
    by_cases he : e.1 = n
    · simp [he]
    · simp [he]
  have hcur : s.timer.slot s.timer.current = (ofDeadline n all).map node := by
    rw [htimer, current_ofWheel, ← hdue, ← hfiled.due_eq]
    rfl
  have hrest : (all.filter fun e => n ≤ e.1).filter (fun e => e.1 ≠ n) = all.filter fun e => n < e.1 := by
    rw [List.filter_filter]
    refine List.filter_congr fun e _ => ?_
    rw [← Bool.decide_and, decide_eq_decide]
    omega
  have htake := hfiled.take
  rw [hrest] at htake
  rw [State.executeSecond, hcur]
  split
  · rename_i hnil
    have hslot : slot (scheme.due n) = [] := by rw [hfiled.due_eq, hdue, List.map_eq_nil_iff.1 hnil]
    rw [update_eq_self_iff.2 hslot.symm] at htake
    rw [List.map_eq_nil_iff.1 hnil, List.map_nil, List.append_nil] at hout
    exact ⟨⟨slot, htimer, htake⟩, fun h => Phase.noConfusion h, hout⟩
  · refine ⟨⟨update slot (scheme.due n) [], ?_, htake⟩, fun h => Phase.noConfusion h, ?_⟩
    · rw [State.detach, htimer, current_ofWheel, linkClear_ofWheel]
    · rw [State.detach, htimer, current_ofWheel, linkClear_ofWheel, hfiled.due_eq, hdue]
      simpa [Function.comp_def, node] using hout

theorem executeFirst_rel (h : Rel s n all) : Rel s.executeFirst (n + 1) all := by
  obtain ⟨slot, htimer, hfiled⟩ := h.timer
  rw [State.executeFirst, if_pos h.current]
  refine executeSecond_rel ?_ hfiled.advance ?_
  · rw [htimer]
    exact shift_ofWheel hfiled
  · rw [dispatched_succ, ← h.out]

theorem add_rel {event : κ} {time : Nat} (h : Rel s n all) (hpos : 0 < time) (hlt : time < 2 ^ 31) :
    Rel { s with timer := s.timer.add event time } n (all ++ [(n + time, event)]) := by
  obtain ⟨slot, htimer, hfiled⟩ := h.timer
  have hlater : n < n + time := by omega
  refine ⟨⟨file scheme n slot (n + time, event), ?_, ?_⟩, h.phase, ?_⟩
  · rw [htimer]
    exact add_ofWheel hlt
  · rw [List.filter_append, List.filter_cons_of_pos (by simpa using hpos), List.filter_nil]
    exact hfiled.file hlater (Nat.add_lt_add_left hlt n)
  · rw [dispatched_append fun e he => by rw [List.mem_singleton.1 he]; exact hlater]
    exact h.out

@[simp] theorem executeSecond_now : s.executeSecond.now = s.now := by
  rw [State.executeSecond]
  split <;> rfl

@[simp] theorem executeFirst_now : s.executeFirst.now = s.now := by
  rw [State.executeFirst]
  split
  · exact executeSecond_now
  · rfl

theorem step_rel {e : Act κ} (h : Rel s n all) (hstep : s.step e = some t) :
    Rel t (n + e.ticks) (all ++ e.deadline n) ∧ t.now = s.now ++ e.atOnce := by
  cases e with
  | timeout event time =>
    rw [State.step] at hstep
    rw [Act.deadline, Act.atOnce]
    split at hstep
    · rename_i hle
      cases hstep
      rw [if_pos hle, if_pos hle, List.append_nil]
      exact ⟨⟨h.timer, h.phase, h.out⟩, rfl⟩
    · rename_i hpos
      split at hstep
      · rename_i hlt
        cases hstep
        rw [if_neg hpos, if_neg hpos, List.append_nil]
        exact ⟨add_rel h (by omega) (by omega), rfl⟩
      · cases hstep
  | update =>
    rw [State.step] at hstep
    split at hstep
    · cases hstep
      simp only [Act.deadline, Act.atOnce, Act.ticks, List.append_nil]
      exact ⟨executeFirst_rel h, executeFirst_now⟩
    · cases hstep
  | resume =>
    simp only [Act.deadline, Act.atOnce, Act.ticks, List.append_nil, Nat.add_zero]
    rw [State.step] at hstep
    cases hp : s.phase with
    | idle =>
      rw [hp] at hstep
      cases hstep
    | first => exact absurd hp h.phase
    | second =>
      -- no event for this tick has come since
      rw [hp] at hstep
      cases hstep
      rw [State.executeSecond, if_pos h.current]
      exact ⟨⟨h.timer, fun h => Phase.noConfusion h, h.out⟩, rfl⟩

theorem run_rel {es : List (Act κ)} (h : Rel s n all) (hrun : run State.step s es = some t) :
    Rel t (n + updates es) (all ++ timeouts n es) ∧ t.now = s.now ++ es.flatMap Act.atOnce := by
  induction es generalizing s n all with
  | nil =>
    cases hrun
    simpa [updates, timeouts] using h
  | cons e es ih =>
    obtain ⟨u, hu, hrest⟩ := run_cons.1 hrun
    obtain ⟨hrel, hnow⟩ := step_rel h hu
    obtain ⟨hrel', hnow'⟩ := ih hrel hrest
    have hticks : updates (e :: es) = e.ticks + updates es := by rw [updates, List.map_cons, List.sum_cons, updates]
    rw [hticks, timeouts, ← Nat.add_assoc, ← List.append_assoc, List.flatMap_cons, ← List.append_assoc, ← hnow]
    exact ⟨hrel', hnow'⟩

/-- In every run, however often the clock comes round: the events that were dispatched are those for the ticks so far,
tick by tick and in the order in which they were added; the others are answered at once; the list of the tick is empty
after every step. -/
theorem run_out {es : List (Act κ)} (hrun : run State.step start es = some s) :
    s.out = (List.range (updates es)).flatMap (fun n => (ofDeadline (n + 1) (timeouts 0 es)).map Prod.snd) ∧
    s.now = es.flatMap Act.atOnce ∧ s.timer.slot s.timer.current = [] := by
  obtain ⟨hrel, hnow⟩ := run_rel rel_start hrun
  rw [Nat.zero_add, List.nil_append] at hrel
  exact ⟨hrel.out, hnow, hrel.current⟩

theorem run_out_two : ∃ s : State Char, run State.step start
      [.timeout 'a' 2, .update, .timeout 'b' 1, .timeout 'c' 0, .timeout 'd' 1, .update, .resume] = some s ∧
    s.out = ['a', 'b', 'd'] ∧ s.now = ['c'] := by
  obtain ⟨s, hs⟩ : ∃ s : State Char, run State.step start
      [.timeout 'a' 2, .update, .timeout 'b' 1, .timeout 'c' 0, .timeout 'd' 1, .update, .resume] = some s := ⟨_, rfl⟩
  obtain ⟨hout, hnow, -⟩ := run_out hs
  exact ⟨s, hs, hout.trans (by decide), hnow⟩

end RoundGame.Skynet.Timeout
