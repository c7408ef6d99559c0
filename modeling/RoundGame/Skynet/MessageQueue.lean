import Mathlib.Algebra.Group.Nat.Defs
import Mathlib.Data.List.Basic
import Mathlib.Data.List.Range
import Mathlib.Data.List.Nodup
import Mathlib.Logic.Function.Basic
import RoundGame.Lib.StepSys

/-!
# Message queues

The queue of a service (`skynet_mq.c`) is a circular buffer that is doubled when it is full, and the queues that have
something to be done are linked in the global queue.

- `contents q`: the messages in the buffer. Pushing and popping are those of a list (`contents_push`, `pop_nil`,
  `pop_cons`), so that every run of a queue is one of a list (`run_contents`).
- A queue that grows too long reports its length. From when no report is pending, the length that is reported exceeds a
  threshold that is doubled by each report, until the queue is found empty (`run_reports`).
- `GlobalQueue.Reps g l`: the global queue links the queues `l`. A queue is pushed behind those and popped from the
  front (`GlobalQueue.push_reps`, `GlobalQueue.pop_cons`), as long as none is pushed twice.

The capacity of a buffer and the lengths do not come to the end of an `int`.
-/

namespace RoundGame.Skynet

open Function

def DEFAULT_QUEUE_SIZE : Nat := 64

def MQ_OVERLOAD : Nat := 1024

structure MessageQueue (μ : Type) where
  handle : Nat
  cap : Nat
  head : Nat
  tail : Nat
  release : Bool
  in_global : Bool
  overload : Nat
  overload_threshold : Nat
  queue : Nat → μ

namespace MessageQueue

variable {μ : Type}

/-- `skynet_mq_create`. The buffer is not initialized. -/
def create [Inhabited μ] (handle : Nat) : MessageQueue μ :=
  { handle, cap := DEFAULT_QUEUE_SIZE, head := 0, tail := 0, release := false, in_global := true, overload := 0
    overload_threshold := MQ_OVERLOAD, queue := fun _ => default }

def length (q : MessageQueue μ) : Nat :=
  if q.head ≤ q.tail then q.tail - q.head else q.tail + q.cap - q.head

/-- `skynet_mq_overload`: the length to be reported, or 0. -/
def takeOverload (q : MessageQueue μ) : Nat × MessageQueue μ := (q.overload, { q with overload := 0 })

/-- The loop of `skynet_mq_pop`, with at most `n` turns: the overload and the threshold. -/
def overloadLoop (length : Nat) : Nat → Nat → Nat → Nat × Nat
  | 0, overload, threshold => (overload, threshold)
  | n + 1, overload, threshold =>
    if threshold < length then overloadLoop length n length (threshold * 2) else (overload, threshold)

/-- `skynet_mq_pop`: the message, `none` when the queue is empty. -/
def pop (q : MessageQueue μ) : Option μ × MessageQueue μ :=
  if q.head ≠ q.tail then
    let head := if q.cap ≤ q.head + 1 then 0 else q.head + 1
    let length := if q.tail < head then q.tail + q.cap - head else q.tail - head
    let (overload, threshold) := overloadLoop length length q.overload q.overload_threshold
    (some (q.queue q.head), { q with head, overload, overload_threshold := threshold })
  else (none, { q with overload_threshold := MQ_OVERLOAD, in_global := false })

def expand (q : MessageQueue μ) : MessageQueue μ :=
  { q with
    head := 0
    tail := q.cap
    cap := q.cap * 2
    queue := fun i => if i < q.cap then q.queue ((q.head + i) % q.cap) else q.queue i }

/-- The part of `skynet_mq_push` that writes the buffer. -/
def write (q : MessageQueue μ) (message : μ) : MessageQueue μ :=
  let q := { q with
    queue := update q.queue q.tail message
    tail := if q.cap ≤ q.tail + 1 then 0 else q.tail + 1 }
  if q.head = q.tail then q.expand else q

/-- `skynet_mq_push`: whether the queue has to be pushed to the global one. -/
def push (q : MessageQueue μ) (message : μ) : Bool × MessageQueue μ :=
  (!q.in_global, { q.write message with in_global := true })

/-- `skynet_mq_mark_release`: whether the queue has to be pushed to the global one. -/
def markRelease (q : MessageQueue μ) : Bool × MessageQueue μ := (!q.in_global, { q with release := true })

/-! ## The buffer as a list -/

structure Wf (q : MessageQueue μ) : Prop where
  head : q.head < q.cap
  tail : q.tail < q.cap

/-- The messages in the buffer, in their order. -/
def contents (q : MessageQueue μ) : List μ := (List.range q.length).map fun i => q.queue ((q.head + i) % q.cap)

variable {q q' : MessageQueue μ} {message : μ} {i : Nat}

theorem wf_create [Inhabited μ] (handle : Nat) : (create handle : MessageQueue μ).Wf :=
  ⟨Nat.zero_lt_succ 63, Nat.zero_lt_succ 63⟩

@[simp] theorem contents_create [Inhabited μ] (handle : Nat) : (create handle : MessageQueue μ).contents = [] := rfl

@[simp] theorem length_contents (q : MessageQueue μ) : q.contents.length = q.length := by
  rw [contents, List.length_map, List.length_range]

theorem getElem?_contents (h : i < q.length) : q.contents[i]? = some (q.queue ((q.head + i) % q.cap)) := by
  rw [contents, List.getElem?_map, List.getElem?_range h]
  rfl

theorem length_lt (hq : q.Wf) : q.length < q.cap := by
  have hhead := hq.head
  have htail := hq.tail
  rw [length]
  split <;> omega

theorem length_eq_zero (hq : q.Wf) : q.length = 0 ↔ q.head = q.tail := by
  have hhead := hq.head
  rw [length]
  split <;> omega

/-- A place of the buffer, by a comparison instead of a remainder. -/
theorem index_eq (hq : q.Wf) (hi : i < q.cap) :
    (q.head + i) % q.cap = if q.head + i < q.cap then q.head + i else q.head + i - q.cap := by
  have hhead := hq.head
  split
  · rename_i hlt
    exact Nat.mod_eq_of_lt hlt
  · rename_i hge
    rw [Nat.mod_eq_sub_mod (Nat.le_of_not_lt hge), Nat.mod_eq_of_lt (by omega)]

/-- The buffer written at its tail, before it is checked whether it is full. -/
def written (q : MessageQueue μ) (message : μ) : MessageQueue μ :=
  { q with
    queue := update q.queue q.tail message
    tail := if q.cap ≤ q.tail + 1 then 0 else q.tail + 1 }

theorem write_eq (q : MessageQueue μ) (message : μ) :
    q.write message = if q.head = (q.written message).tail then (q.written message).expand else q.written message := rfl

/-- The places in use are not the one that is written, which is the next. -/
theorem written_queue (hq : q.Wf) (hi : i ≤ q.length) :
    (q.written message).queue ((q.head + i) % q.cap) =
      if i = q.length then message else q.queue ((q.head + i) % q.cap) := by
  have hhead := hq.head
  have htail := hq.tail
  have hlt := length_lt hq
  have hplace : (q.head + q.length) % q.cap = q.tail := by
    rw [index_eq hq hlt, length]
    split <;> split <;> omega
  split
  · rename_i heq
    rw [heq, hplace]
    exact update_self q.tail message q.queue
  · rename_i hne
    refine update_of_ne ?_ _ _
    rw [← hplace, index_eq hq (by omega), index_eq hq hlt]
    split <;> split <;> omega

theorem contents_eq_of_queue {n : Nat} {f : Nat → μ} (hn : q.length = n)
    (hf : ∀ i < n, q.queue ((q.head + i) % q.cap) = f i) : q.contents = (List.range n).map f := by
  rw [contents, hn]
  exact List.map_congr_left fun i hi => hf i (List.mem_range.1 hi)

theorem map_range_written (hq : q.Wf) :
    (List.range (q.length + 1)).map (fun i => (q.written message).queue ((q.head + i) % q.cap)) =
      q.contents ++ [message] := by
  rw [List.range_succ, List.map_append, List.map_singleton, written_queue hq (Nat.le_refl _), if_pos rfl, contents]
  congr 1
  refine List.map_congr_left fun i hi => ?_
  have hlt := List.mem_range.1 hi
  rw [written_queue hq hlt.le, if_neg hlt.ne]

/-- A message is written behind the others, whether or not the buffer has to be expanded for it. -/
theorem write_spec (hq : q.Wf) (message : μ) :
    (q.write message).Wf ∧ (q.write message).contents = q.contents ++ [message] := by
  have hhead := hq.head
  have htail := hq.tail
  have hlen := length_lt hq
  rw [write_eq]
  split
  · rename_i hfull
    have hlength : q.length + 1 = q.cap := by
      rw [written] at hfull
      dsimp only at hfull
      rw [length]
      split at hfull <;> split <;> omega
    refine ⟨⟨by change 0 < q.cap * 2; omega, by change q.cap < q.cap * 2; omega⟩, ?_⟩
    rw [← map_range_written hq, hlength]
    refine contents_eq_of_queue (if_pos (Nat.zero_le _)) fun i hi => ?_
    have hmod : (0 + i) % (q.cap * 2) = i := by rw [Nat.zero_add, Nat.mod_eq_of_lt (by omega)]
    change (q.written message).expand.queue ((0 + i) % (q.cap * 2)) = _
    rw [hmod]
    exact if_pos hi
  · rename_i hroom
    have hlength : (q.written message).length = q.length + 1 := by
      simp only [written, length] at hroom ⊢
      by_cases hwrap : q.cap ≤ q.tail + 1
      · simp only [if_pos hwrap] at hroom ⊢
        split <;> split <;> omega
      · simp only [if_neg hwrap] at hroom ⊢
        split <;> split <;> omega
    refine ⟨⟨hhead, ?_⟩, ?_⟩
    · rw [written]
      dsimp only
      split <;> omega
    · rw [← map_range_written hq]
      exact contents_eq_of_queue hlength fun i _ => rfl

@[simp] theorem contents_push (hq : q.Wf) (message : μ) :
    (q.push message).2.contents = q.contents ++ [message] := (write_spec hq message).2

theorem wf_push (hq : q.Wf) (message : μ) : (q.push message).2.Wf :=
  ⟨(write_spec hq message).1.head, (write_spec hq message).1.tail⟩

theorem wf_pop (hq : q.Wf) : q.pop.2.Wf := by
  have hhead := hq.head
  rw [pop]
  split
  · refine ⟨?_, hq.tail⟩
    dsimp only
    split <;> omega
  · exact ⟨hq.head, hq.tail⟩

/-- Nothing is popped from an empty queue, which then leaves the global queue. -/
theorem pop_nil (hq : q.Wf) (h : q.contents = []) :
    q.pop = (none, { q with overload_threshold := MQ_OVERLOAD, in_global := false }) := by
  have hzero : q.length = 0 := by rw [← length_contents, h, List.length_nil]
  rw [pop, if_neg (not_not.2 ((length_eq_zero hq).1 hzero))]

/-- The oldest message is popped. -/
theorem pop_cons (hq : q.Wf) {ms : List μ} (h : q.contents = message :: ms) :
    q.pop.1 = some message ∧ q.pop.2.contents = ms ∧ q.pop.2.in_global = q.in_global := by
  have hhead := hq.head
  have htail := hq.tail
  have hlen : q.length = ms.length + 1 := by rw [← length_contents, h, List.length_cons]
  have hne : q.head ≠ q.tail := by
    intro heq
    rw [(length_eq_zero hq).2 heq] at hlen
    cases hlen
  rw [contents, hlen, List.range_succ_eq_map, List.map_cons, List.map_map, List.cons.injEq, Nat.add_zero,
    Nat.mod_eq_of_lt hhead] at h
  obtain ⟨rfl, htl⟩ := h
  rw [pop, if_pos hne]
  refine ⟨rfl, ?_, rfl⟩
  rw [← htl]
  refine contents_eq_of_queue ?_ fun i hi => ?_
  · simp only [length] at hlen ⊢
    split at hlen <;> split <;> split <;> omega
  · have hi' : i + 1 < q.cap := by
      have hlt := length_lt hq
      omega
    dsimp only [Function.comp]
    congr 1
    rw [index_eq hq hi']
    by_cases hwrap : q.cap ≤ q.head + 1
    · rw [if_pos hwrap, if_neg (by omega), Nat.mod_eq_of_lt (by omega)]
      omega
    · rw [if_neg hwrap]
      split
      · rw [Nat.mod_eq_of_lt (by omega)]
        omega
      · rw [Nat.mod_eq_sub_mod (by omega), Nat.mod_eq_of_lt (by omega)]
        omega

end MessageQueue

/-! ## Runs of a queue -/

/-- The operations on a queue, each with its result; that of a push is whether the queue goes to the global one. -/
inductive QueueOp (μ : Type)
  | push (message : μ) (global : Bool)
  | pop (message : Option μ)
  | length (n : Nat)
  | overload (n : Nat)
  deriving DecidableEq

/-- What a queue is for: a list of messages, and whether somebody has to come for it. -/
structure Fifo (μ : Type) where
  messages : List μ
  listed : Bool

variable {μ : Type} [DecidableEq μ]

/-- One operation with its result. The overload that is reported does not depend on the messages alone. -/
def Fifo.step (f : Fifo μ) : QueueOp μ → Option (Fifo μ)
  | .push message global => if global = !f.listed then some ⟨f.messages ++ [message], true⟩ else none
  | .pop message =>
    if message = f.messages.head? then some ⟨f.messages.tail, message.isSome && f.listed⟩ else none
  | .length n => if n = f.messages.length then some f else none
  | .overload _ => some f

namespace MessageQueue

/-- One operation of the queue; `none` when it has another result. -/
def step (q : MessageQueue μ) : QueueOp μ → Option (MessageQueue μ)
  | .push message global => if (q.push message).1 = global then some (q.push message).2 else none
  | .pop message => if q.pop.1 = message then some q.pop.2 else none
  | .length n => if q.length = n then some q else none
  | .overload n => if q.takeOverload.1 = n then some q.takeOverload.2 else none

omit [DecidableEq μ] in
def fifo (q : MessageQueue μ) : Fifo μ := ⟨q.contents, q.in_global⟩

theorem step_fifo {q q' : MessageQueue μ} {op : QueueOp μ} (hq : q.Wf) (h : q.step op = some q') :
    q'.Wf ∧ q.fifo.step op = some q'.fifo := by
  cases op with
  | push message global =>
    rw [step] at h
    split at h
    · rename_i hg
      cases h
      refine ⟨wf_push hq message, ?_⟩
      have hcontents := contents_push hq message
      simp only [Fifo.step, fifo, hcontents]
      exact if_pos hg.symm
    · cases h
  | pop message =>
    rw [step] at h
    split at h
    · rename_i hm
      cases h
      refine ⟨wf_pop hq, ?_⟩
      cases hc : q.contents with
      | nil =>
        have hpop := pop_nil hq hc
        rw [hpop] at hm ⊢
        cases hm
        have hfifo : ({ q with overload_threshold := MQ_OVERLOAD, in_global := false } : MessageQueue μ).fifo =
            ⟨[], false⟩ := congrArg (Fifo.mk · false) hc
        rw [hfifo]
        simp only [Fifo.step, fifo, hc]
        exact if_pos rfl
      | cons m ms =>
        obtain ⟨hsome, htl, hglobal⟩ := pop_cons hq hc
        rw [hsome] at hm
        cases hm
        simp only [Fifo.step, fifo, hc, htl, hglobal]
        exact if_pos rfl
    · cases h
  | length n =>
    rw [step] at h
    split at h
    · rename_i hn
      cases h
      refine ⟨hq, if_pos ?_⟩
      rw [← hn]
      exact (length_contents _).symm
    · cases h
  | overload n =>
    rw [step] at h
    split at h
    · cases h
      exact ⟨⟨hq.head, hq.tail⟩, rfl⟩
    · cases h

/-- Every run of a queue is a run of a list with the same results. -/
theorem run_contents [Inhabited μ] {handle : Nat} {q : MessageQueue μ} {ops : List (QueueOp μ)}
    (h : StepSys.run step (create handle : MessageQueue μ) ops = some q) :
    StepSys.run Fifo.step ⟨[], true⟩ ops = some ⟨q.contents, q.in_global⟩ := by
  have hfifo : (create handle : MessageQueue μ).fifo = ⟨[], true⟩ := rfl
  rw [← hfifo]
  have hwf := wf_create (μ := μ) handle
  generalize (create handle : MessageQueue μ) = t at h hwf
  induction ops generalizing t with
  | nil =>
    cases h
    rfl
  | cons op ops ih =>
    obtain ⟨u, hu, hrest⟩ := StepSys.run_cons.1 h
    obtain ⟨hwf', hstep⟩ := step_fifo hwf hu
    exact StepSys.run_cons.2 ⟨_, hstep, ih u hrest hwf'⟩

theorem run_contents_example : ∃ q, StepSys.run step (create 7 : MessageQueue Nat)
    [.push 1 false, .push 2 false, .pop (some 1), .length 1, .pop (some 2), .pop none, .push 3 true] = some q ∧
    StepSys.run Fifo.step ⟨[], true⟩ [.push 1 false, .push 2 false, .pop (some 1), .length 1, .pop (some 2), .pop none,
      .push 3 true] = some ⟨q.contents, q.in_global⟩ := by
  have hrun : (StepSys.run step (create 7 : MessageQueue Nat) [.push 1 false, .push 2 false, .pop (some 1), .length 1,
      .pop (some 2), .pop none, .push 3 true]).isSome := by decide
  obtain ⟨q, hq⟩ := Option.isSome_iff_exists.1 hrun
  exact ⟨q, hq, run_contents hq⟩

/-! ## Reports of an overload -/

/-- The overload and the threshold after the loop, when a turn for each message is left. -/
theorem overloadLoop_spec {length overload threshold n : Nat} (hpos : 0 < threshold) (hn : length ≤ threshold + n) :
    (length ≤ threshold ∧ overloadLoop length n overload threshold = (overload, threshold)) ∨
      (threshold < length ∧ ∃ t, overloadLoop length n overload threshold = (length, t) ∧
        length ≤ t ∧ t < 2 * length ∧ 2 * threshold ≤ t) := by
  induction n generalizing overload threshold with
  | zero => exact Or.inl ⟨hn, rfl⟩
  | succ n ih =>
    rw [overloadLoop]
    by_cases hlt : threshold < length
    · rw [if_pos hlt]
      refine Or.inr ⟨hlt, ?_⟩
      have hpos' : 0 < threshold * 2 := by omega
      have hn' : length ≤ threshold * 2 + n := by omega
      rcases ih hpos' hn' with ⟨hle, heq⟩ | ⟨_, t, heq, hle, hup, hlow⟩
      · exact ⟨threshold * 2, heq, hle, by omega, by omega⟩
      · exact ⟨t, heq, hle, hup, by omega⟩
    · rw [if_neg hlt]
      exact Or.inl ⟨Nat.le_of_not_lt hlt, rfl⟩

/-- An overload that was not reported yet is within the last doubling of the threshold. -/
def Pending (q : MessageQueue μ) : Prop :=
  0 < q.overload_threshold ∧
    (q.overload ≠ 0 → q.overload ≤ q.overload_threshold ∧ q.overload_threshold < 2 * q.overload)

/-- The lengths that are reported. -/
def reports (ops : List (QueueOp μ)) : List Nat :=
  ops.filterMap fun op => match op with
    | .overload n => if n = 0 then none else some n
    | _ => none

omit [DecidableEq μ] in
/-- What a pop does to the overload of a queue that is not empty. -/
theorem pop_overload {q : MessageQueue μ} (hq : q.Pending) (hne : q.pop.1 ≠ none) :
    (q.pop.2.overload = q.overload ∧ q.pop.2.overload_threshold = q.overload_threshold) ∨
      (q.overload_threshold < q.pop.2.overload ∧ q.pop.2.overload ≤ q.pop.2.overload_threshold ∧
        q.pop.2.overload_threshold < 2 * q.pop.2.overload ∧ 2 * q.overload_threshold ≤ q.pop.2.overload_threshold) := by
  have hneq : q.head ≠ q.tail := by
    intro heq
    rw [pop, if_neg (not_not.2 heq)] at hne
    exact hne rfl
  rw [pop, if_pos hneq]
  dsimp only
  generalize (if q.tail < if q.cap ≤ q.head + 1 then 0 else q.head + 1 then
    q.tail + q.cap - if q.cap ≤ q.head + 1 then 0 else q.head + 1
    else q.tail - if q.cap ≤ q.head + 1 then 0 else q.head + 1) = length
  rcases overloadLoop_spec hq.1 (Nat.le_add_left length q.overload_threshold) with
    ⟨_, heq⟩ | ⟨hlt, t, heq, hle, hup, hlow⟩
  · rw [heq]
    exact Or.inl ⟨rfl, rfl⟩
  · rw [heq]
    exact Or.inr ⟨hlt, hle, hup, hlow⟩

/-- Half of what the next report exceeds. -/
def floor (q : MessageQueue μ) : Nat := if q.overload = 0 then 2 * q.overload_threshold else q.overload_threshold

/-- Each operation that does not find the queue empty keeps or raises the floor. A report is above it, and then the
floor is at least doubled. -/
theorem step_floor {q q' : MessageQueue μ} {op : QueueOp μ} (hq : q.Pending) (hne : op ≠ .pop none)
    (h : q.step op = some q') :
    q'.Pending ∧ ((reports [op] = [] ∧ q.floor ≤ q'.floor) ∨
      ∃ r, reports [op] = [r] ∧ q.floor < 2 * r ∧ 2 * r ≤ q'.floor ∧ 2 * q.floor ≤ q'.floor) := by
  cases op with
  | push message global =>
    rw [step] at h
    split at h
    · cases h
      have hsame : (q.push message).2.overload = q.overload ∧
          (q.push message).2.overload_threshold = q.overload_threshold := by
        simp only [push]
        rw [write_eq]
        split <;> exact ⟨rfl, rfl⟩
      refine ⟨?_, Or.inl ⟨rfl, ?_⟩⟩
      · rw [Pending, hsame.1, hsame.2]
        exact hq
      · rw [floor, floor, hsame.1, hsame.2]
    · cases h
  | pop message =>
    rw [step] at h
    split at h
    · rename_i hm
      cases h
      have hsome : q.pop.1 ≠ none := fun hnone => hne (by rw [← hm, hnone])
      have hpos := hq.1
      rcases pop_overload hq hsome with ⟨ho, ht⟩ | ⟨hlt, hle, hup, hlow⟩
      · refine ⟨?_, Or.inl ⟨rfl, ?_⟩⟩
        · rw [Pending, ho, ht]
          exact hq
        · rw [floor, floor, ho, ht]
      · refine ⟨⟨by omega, fun _ => ⟨hle, hup⟩⟩, Or.inl ⟨rfl, ?_⟩⟩
        have hset : q.pop.2.overload ≠ 0 := by omega
        rw [floor, floor, if_neg hset]
        split <;> omega
    · cases h
  | length n =>
    rw [step] at h
    split at h
    · cases h
      exact ⟨hq, Or.inl ⟨rfl, Nat.le_refl _⟩⟩
    · cases h
  | overload n =>
    rw [step] at h
    split at h
    · rename_i hn
      cases h
      obtain rfl : q.overload = n := hn
      refine ⟨⟨hq.1, fun hno => absurd rfl hno⟩, ?_⟩
      have hfloor : q.takeOverload.2.floor = 2 * q.overload_threshold := if_pos rfl
      rw [hfloor, floor]
      by_cases hzero : q.overload = 0
      · refine Or.inl ⟨?_, by rw [if_pos hzero]⟩
        simp only [reports, List.filterMap_cons, hzero, if_true, List.filterMap_nil]
      · obtain ⟨hle, hup⟩ := hq.2 hzero
        refine Or.inr ⟨q.overload, ?_, by rw [if_neg hzero]; exact hup, by omega, by rw [if_neg hzero]⟩
        simp only [reports, List.filterMap_cons, if_neg hzero, List.filterMap_nil]
    · cases h

omit [DecidableEq μ] in
theorem reports_cons (op : QueueOp μ) (ops : List (QueueOp μ)) : reports (op :: ops) = reports [op] ++ reports ops := by
  rw [← List.singleton_append, reports, List.filterMap_append]
  rfl

theorem run_floor {q q' : MessageQueue μ} {ops : List (QueueOp μ)} (hq : q.Pending)
    (hne : QueueOp.pop none ∉ ops) (h : StepSys.run step q ops = some q') :
    (reports ops).Pairwise (· < ·) ∧ ∀ k r, (reports ops)[k]? = some r → q.floor * 2 ^ k < 2 * r := by
  induction ops generalizing q with
  | nil => exact ⟨List.Pairwise.nil, nofun⟩
  | cons op ops ih =>
    obtain ⟨u, hu, hrest⟩ := StepSys.run_cons.1 h
    obtain ⟨hop, hops⟩ := List.ne_and_not_mem_of_not_mem_cons hne
    obtain ⟨hpending, hstep⟩ := step_floor hq hop.symm hu
    obtain ⟨hsorted, hbound⟩ := ih hpending hops hrest
    rw [reports_cons]
    rcases hstep with ⟨hnil, hle⟩ | ⟨r, hr, hlow, hup, hdouble⟩
    · rw [hnil, List.nil_append]
      exact ⟨hsorted, fun k r hk => (Nat.mul_le_mul_right _ hle).trans_lt (hbound k r hk)⟩
    · rw [hr, List.singleton_append, List.pairwise_cons]
      refine ⟨⟨?_, hsorted⟩, ?_⟩
      · intro r' hr'
        obtain ⟨k, hk⟩ := List.mem_iff_getElem?.1 hr'
        have hge := Nat.le_mul_of_pos_right u.floor (Nat.two_pow_pos k)
        have hlt := hbound k r' hk
        omega
      · intro k r' hk
        cases k with
        | zero =>
          rw [List.getElem?_cons_zero] at hk
          cases hk
          rwa [Nat.pow_zero, Nat.mul_one]
        | succ k =>
          rw [List.getElem?_cons_succ] at hk
          calc q.floor * 2 ^ (k + 1) = 2 * q.floor * 2 ^ k := by rw [Nat.pow_succ, Nat.mul_comm 2, Nat.mul_assoc,
                Nat.mul_comm 2]
            _ ≤ u.floor * 2 ^ k := Nat.mul_le_mul_right _ hdouble
            _ < 2 * r' := hbound k r' hk

/-- As long as the queue is not found empty, and when no report is pending at the start, the lengths that are reported
increase, and the `k`-th one, counted from 0, exceeds the threshold of the start doubled `k` times. -/
theorem run_reports {q q' : MessageQueue μ} {ops : List (QueueOp μ)} (hzero : q.overload = 0)
    (hpos : 0 < q.overload_threshold) (hne : QueueOp.pop none ∉ ops) (h : StepSys.run step q ops = some q') :
    (reports ops).Pairwise (· < ·) ∧ ∀ k r, (reports ops)[k]? = some r → q.overload_threshold * 2 ^ k < r := by
  obtain ⟨hsorted, hbound⟩ := run_floor ⟨hpos, fun hno => absurd hzero hno⟩ hne h
  refine ⟨hsorted, fun k r hk => ?_⟩
  have hlt := hbound k r hk
  rw [floor, if_pos hzero, Nat.mul_assoc] at hlt
  exact Nat.lt_of_mul_lt_mul_left hlt

/-- A queue with 2049 messages, of which none was reported yet. -/
def long : MessageQueue Nat := { create 7 with cap := 4096, tail := 2049 }

def longOps : List (QueueOp Nat) :=
  [.pop (some 0), .overload 2048, .push 1 false, .pop (some 0), .overload 0, .push 2 false, .push 3 false,
    .pop (some 0), .overload 2049]

theorem run_reports_long : (reports longOps).Pairwise (· < ·) ∧
    ∀ k r, (reports longOps)[k]? = some r → long.overload_threshold * 2 ^ k < r := by
  have hrun : (StepSys.run step long longOps).isSome := by decide +kernel
  obtain ⟨q, hq⟩ := Option.isSome_iff_exists.1 hrun
  exact run_reports rfl (by decide) (by decide) hq

end MessageQueue

/-! ## The global queue -/

/-- The queues that wait for a worker, linked by their `next` fields. -/
structure GlobalQueue where
  head : Option Nat
  tail : Option Nat
  next : Nat → Option Nat

namespace GlobalQueue

def init : GlobalQueue := ⟨none, none, fun _ => none⟩

/-- `skynet_globalmq_push`; `none` where the assertion fails. -/
def push (g : GlobalQueue) (queue : Nat) : Option GlobalQueue :=
  if g.next queue = none then
    match g.tail with
    | some tail => some { g with next := update g.next tail (some queue), tail := some queue }
    | none => some { g with head := some queue, tail := some queue }
  else none

/-- `skynet_globalmq_pop`; `none` where the assertion fails. -/
def pop (g : GlobalQueue) : Option (Option Nat × GlobalQueue) :=
  match g.head with
  | none => some (none, g)
  | some mq =>
    match g.next mq with
    | some next => some (some mq, { g with head := some next, next := update g.next mq none })
    | none => if g.tail = some mq then some (some mq, ⟨none, none, update g.next mq none⟩) else none

/-- The entry behind another one. -/
def nextIn : List Nat → Nat → Option Nat
  | a :: b :: l, c => if c = a then some b else nextIn (b :: l) c
  | _, _ => none

/-- The links of the global queue lead through the list. -/
structure Reps (g : GlobalQueue) (l : List Nat) : Prop where
  nodup : l.Nodup
  head : g.head = l.head?
  tail : g.tail = l.getLast?
  next : g.next = nextIn l

variable {g : GlobalQueue} {l : List Nat} {a c : Nat}

theorem reps_init : init.Reps [] := ⟨List.nodup_nil, rfl, rfl, rfl⟩

theorem nextIn_not_mem (h : c ∉ l) : nextIn l c = none := by
  induction l with
  | nil => rfl
  | cons a l ih =>
    obtain ⟨hne, hl⟩ := List.ne_and_not_mem_of_not_mem_cons h
    cases l with
    | nil => rfl
    | cons b l => rw [nextIn, if_neg hne, ih hl]

theorem nextIn_concat (h : c ∉ l) : ∀ {t}, l.getLast? = some t → l.Nodup →
    nextIn (l ++ [c]) = update (nextIn l) t (some c) := by
  induction l with
  | nil => nofun
  | cons a l ih =>
    intro t ht hnodup
    obtain ⟨_, hl⟩ := List.ne_and_not_mem_of_not_mem_cons h
    obtain ⟨ha, hnodup'⟩ := List.nodup_cons.1 hnodup
    funext d
    cases l with
    | nil =>
      obtain rfl : a = t := Option.some.inj ht
      by_cases hd : d = a
      · subst hd
        rw [update_self]
        exact if_pos rfl
      · rw [update_of_ne hd]
        exact if_neg hd
    | cons b l =>
      rw [List.getLast?_cons_cons] at ht
      have hne : t ≠ a := by
        rintro rfl
        exact ha (List.mem_of_getLast? ht)
      have hrec := ih hl ht hnodup'
      rw [List.cons_append, List.cons_append, nextIn, ← List.cons_append, hrec]
      by_cases hd : d = a
      · subst hd
        rw [if_pos rfl, update_of_ne hne.symm, nextIn, if_pos rfl]
      · rw [if_neg hd]
        by_cases hdt : d = t
        · subst hdt
          rw [update_self, update_self]
        · rw [update_of_ne hdt, update_of_ne hdt, nextIn, if_neg hd]

theorem nextIn_tail (h : (a :: l).Nodup) : nextIn l = update (nextIn (a :: l)) a none := by
  funext d
  by_cases hd : d = a
  · subst hd
    rw [update_self, nextIn_not_mem (List.nodup_cons.1 h).1]
  · rw [update_of_ne hd]
    cases l with
    | nil => rfl
    | cons b l => exact (if_neg hd).symm

/-- A queue that is not linked yet is linked behind the others. -/
theorem push_reps (hg : g.Reps l) (h : c ∉ l) : ∃ g', g.push c = some g' ∧ g'.Reps (l ++ [c]) := by
  have hnext : g.next c = none := by rw [hg.next, nextIn_not_mem h]
  have hnodup : (l ++ [c]).Nodup := List.nodup_append.2 ⟨hg.nodup, List.nodup_singleton c, by
    intro b hb d hd
    rw [List.mem_singleton.1 hd]
    rintro rfl
    exact h hb⟩
  rw [push, if_pos hnext]
  cases hlast : l.getLast? with
  | none =>
    obtain rfl := List.getLast?_eq_none_iff.1 hlast
    rw [hg.tail, hlast]
    exact ⟨_, rfl, ⟨hnodup, rfl, rfl, hg.next⟩⟩
  | some t =>
    rw [hg.tail, hlast]
    refine ⟨_, rfl, ⟨hnodup, ?_, ?_, ?_⟩⟩
    · cases l with
      | nil => cases hlast
      | cons b l => exact hg.head
    · rw [List.getLast?_concat]
    · rw [nextIn_concat h hlast hg.nodup, hg.next]

theorem pop_nil (hg : g.Reps []) : g.pop = some (none, g) := by rw [pop, hg.head]; rfl

/-- The queue that was linked first is taken out. -/
theorem pop_cons (hg : g.Reps (a :: l)) : ∃ g', g.pop = some (some a, g') ∧ g'.Reps l := by
  have hnodup := (List.nodup_cons.1 hg.nodup).2
  rw [pop, hg.head]
  dsimp only [List.head?_cons]
  cases l with
  | nil =>
    have hnext : g.next a = none := by rw [hg.next]; rfl
    have htail : g.tail = some a := hg.tail
    rw [hnext, if_pos htail]
    exact ⟨_, rfl, ⟨hnodup, rfl, rfl, by rw [nextIn_tail hg.nodup, hg.next]⟩⟩
  | cons b l =>
    have hnext : g.next a = some b := by
      rw [hg.next]
      exact if_pos rfl
    rw [hnext]
    refine ⟨_, rfl, ⟨hnodup, rfl, ?_, by rw [nextIn_tail hg.nodup, hg.next]⟩⟩
    rw [← List.getLast?_cons_cons]
    exact hg.tail

end GlobalQueue

end RoundGame.Skynet
