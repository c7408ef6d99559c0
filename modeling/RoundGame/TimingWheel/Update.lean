import RoundGame.TimingWheel.Refinement

/-!
# Updates of the timing wheel

Updates of a wheel that any run without a failed assertion leads to; callbacks may raise in it.

- An update should be rejected, or run exactly the timers whose deadline has come (`AllOrNothing`). Callbacks may make
  updates of their own, for the wheel is not locked while they run. It is all or nothing iff its time is neither before
  the clock nor beyond the end of the clock and its callbacks are calm, with no update but to the time of the clock
  (`update_iff`): the assertion on the difference of the two never fails, the loop goes on to the end of the clock, and
  the number of its rounds was taken before the first of them. A callback makes no new wheel with `timewheel_create`.
- A callback that raises leaves the update, and with it the list of its tick, of which only a local variable knew the
  rest. So every timer is served iff each callback that raised was the last of its tick (`served_iff`).
-/

namespace RoundGame.TimingWheel

open Function Timers

variable {κ : Type}

/-- `timewheel_gettime` -/
def TimeWheel.gettime (tw : TimeWheel κ) : Nat := (tw.start_time + tw.curr_time) % 2 ^ 64

/-- The clock stands at `t`, after exactly the timers were run whose deadline has come by then: those of the wheel `tw`,
and those that callbacks have entered. -/
structure RanUntil (tw : TimeWheel κ) (t : Nat) (w : World (TimeWheel κ) κ) : Prop where
  time : w.store.gettime = t
  sorted : Sorted w.calls
  calls : ∀ d, due d w.calls =
    if tw.curr_time < d ∧ tw.start_time + d ≤ t then
      (pending tw d).map (fun n => (n.time, n.callback)) ++ due d w.added
    else []

/-- The update of the wheel to `t` is rejected, or it finishes as it should. Lua lets callbacks make updates within each
other up to some `depth`. -/
def AllOrNothing (b : Scripts κ) (depth : Nat) (tw : TimeWheel κ) (t : Nat) : Prop :=
  TimeWheel.store.todo tw t = none ∨
    ∃ w, Nested.update TimeWheel.store b (depth + 1) (start tw) t = (.done, w) ∧ RanUntil tw t w

/-- The number of rounds: for a time before the clock, more than the clock has left. -/
theorem updateRounds_cases {start now t : Nat} (hstart : start ≤ t) (ht : t < 2 ^ 64) (hnow : now ≤ MAX_TIME) :
    ∃ n, updateRounds start now t = some n ∧ (start + now ≤ t → n = t - (start + now)) ∧
      (t < start + now → MAX_TIME < n) := by
  have hmax : MAX_TIME < 2 ^ 32 := by decide
  unfold updateRounds
  rw [if_neg (by omega)]
  exact ⟨_, rfl, fun h => by omega, fun h => by omega⟩

/-- A run of the wheel, and that of the queue beside it. -/
theorem exists_queue {b : Behaviour κ} {t₀ : Nat} {cs : List (Call κ)} {w : World (TimeWheel κ) κ}
    (hrun : run TimeWheel.store b cs (start (TimeWheel.create t₀)) = (.done, w)) :
    ∃ v l, Same (Rel 1) (Rel 0) w v ∧ Account v [] l ∧ v.store.start = t₀ ∧
      (l = [] ↔ EachRun TimeWheel.store b RaisesLast cs (start (TimeWheel.create t₀))) := by
  have hsame₀ : Same (κ := κ) (Rel 1) (Rel 0) (start (TimeWheel.create t₀ : TimeWheel κ))
      (start (⟨t₀, 0, []⟩ : Queue κ)) := same_start (rel_create t₀)
  obtain ⟨v, hqueue, hsame⟩ := (run_bisim bisim hsame₀ cs).of_done hrun
  obtain ⟨l, haccount, hsince, hl⟩ := (account_start t₀).run hqueue
  rw [List.nil_append] at haccount
  exact ⟨v, l, hsame, haccount, hsince.start, hl.trans (hsame₀.eachRun bisim cs).symm⟩

/-! ## All or nothing -/

/-- The clock of the wheel. -/
theorem clocked_wheel (t₀ : Nat) :
    Clocked (TimeWheel.store (κ := κ)) (updateRounds t₀) fun tw => ∃ q, Rel 1 tw q ∧ q.start = t₀ :=
  (clocked_queue t₀).of_bisim bisim

/-- A wheel that a run leads to has the timers of a queue. -/
theorem reachable {b : Scripts κ} {depth t₀ : Nat} {cs : List (Call κ)} {w : World (TimeWheel κ) κ}
    (hrun : Nested.run TimeWheel.store b depth cs (start (TimeWheel.create t₀)) = (.done, w)) :
    ∃ q, Rel 1 w.store q ∧ q.start = t₀ := by
  have hgrow := (clocked_wheel t₀).run b depth cs (start (TimeWheel.create t₀)) ⟨⟨t₀, 0, []⟩, rel_create t₀, rfl⟩
  rw [hrun] at hgrow
  exact (hgrow (by simp)).1

section

variable {b : Behaviour κ} {tw : TimeWheel κ} {q : Queue κ} {w : World (TimeWheel κ) κ} {t n : Nat}

theorem update_eq (hn : TimeWheel.store.todo tw t = some n) :
    call TimeWheel.store b (start tw) (.update t) = rounds TimeWheel.store b n (start tw) := by
  unfold call
  have hn' : TimeWheel.store.todo (start (κ := κ) tw).store t = some n := hn
  simp only [hn']

/-- An update with plain callbacks finishes iff its time is between the clock and the end of the clock, and its
callbacks are calm. -/
theorem update_done_iff (hrel : Rel 1 tw q) (hstart : tw.start_time ≤ t) (ht : t < 2 ^ 64) :
    (call TimeWheel.store b (start tw) (.update t)).1 = .done ↔
      (tw.start_time + tw.curr_time ≤ t ∧ t ≤ tw.start_time + MAX_TIME) ∧
        EachCall TimeWheel.store b (Calm MAX_DELAY_TIME) (start tw) (.update t) := by
  have hclock := hrel.clock
  have hnow : tw.curr_time = (start (κ := κ) q).store.now := hrel.now
  have hsame : Same (κ := κ) (Rel 1) (Rel 0) (start tw) (start q) := same_start hrel
  obtain ⟨n, hn, hwithin, hbefore⟩ := updateRounds_cases hstart ht hclock
  have htodo : TimeWheel.store.todo tw t = some n := hn
  have heach : EachCall TimeWheel.store b (Calm MAX_DELAY_TIME) (start tw) (.update t) ↔
      EachRounds TimeWheel.store b (Calm MAX_DELAY_TIME) n (start tw) := by
    have htodo' : TimeWheel.store.todo (start (κ := κ) tw).store t = some n := hn
    simp only [EachCall, htodo', Option.mem_some_iff, forall_eq']
  rw [update_eq htodo, (hsame.rounds bisim n).1, rounds_done_iff, heach, hsame.eachRounds bisim n, and_comm]
  refine and_congr ?_ Iff.rfl
  rw [← hnow]
  constructor
  · intro hend
    by_cases hlo : tw.start_time + tw.curr_time ≤ t
    · have := hwithin hlo
      by_cases hzero : n = 0
      · omega
      · have := hend hzero
        omega
    · have hfar := hbefore (by omega)
      have := hend (by omega)
      omega
  · rintro ⟨hlo, hhi⟩ -
    have := hwithin hlo
    omega

/-- What an update with plain callbacks that finishes has done. -/
theorem ranUntil_of_done (hrel : Rel 1 tw q) (ht : t < 2 ^ 64) (hlo : tw.start_time + tw.curr_time ≤ t)
    (hhi : t ≤ tw.start_time + MAX_TIME) (hcall : call TimeWheel.store b (start tw) (.update t) = (.done, w)) :
    RanUntil tw t w := by
  have hnow : tw.curr_time = q.now := hrel.now
  -- beside it goes the queue, whose timers count as entered before
  have hsame : Same (κ := κ) (Rel 1) (Rel 0) ((start tw).before q.queue) ((start q).before q.queue) :=
    (same_start hrel).before q.queue
  have haccount : Account ((start q).before q.queue) [] [] :=
    account_before hrel.sorted fun a ha => by have := (hrel.bound a ha).1; omega
  rw [update_eq (updateRounds_eq hlo hhi)] at hcall
  have hbefore := rounds_before (S := TimeWheel.store) (b := b) (w := start tw) (a := q.queue)
    (t - (tw.start_time + tw.curr_time))
  rw [hcall] at hbefore
  obtain ⟨v, hqueue, hsame'⟩ := (hsame.rounds bisim _).of_done hbefore
  obtain ⟨l, haccount', hsince, hdone, -⟩ := haccount.rounds hqueue (by simp)
  obtain ⟨rfl, hnow'⟩ := hdone rfl
  rw [List.append_nil] at haccount'
  obtain ⟨new, entered, hcalls, hadded, hsorted, hdue⟩ := haccount.called_since haccount' hsince
  have hcalls' : w.calls = new := hsame'.calls.trans hcalls
  have hadded' : w.added = entered := by
    have heq : q.queue ++ w.added = q.queue ++ [] ++ entered := hsame'.added.trans hadded
    rw [List.append_nil] at heq
    exact List.append_cancel_left heq
  have hstart' : w.store.start_time = tw.start_time :=
    hsame'.store.start.trans (hsince.start.trans hrel.start.symm)
  have hclock' : w.store.curr_time = v.store.now := hsame'.store.now
  have hclock : v.store.now = q.now + (t - (tw.start_time + tw.curr_time)) := hnow'
  have htime : w.store.start_time + w.store.curr_time = t := by omega
  refine ⟨?_, hcalls' ▸ hsorted, fun d => ?_⟩
  · unfold TimeWheel.gettime
    rw [htime, Nat.mod_eq_of_lt ht]
  · have hdue' : due d new = if q.now < d ∧ d ≤ v.store.now then due d q.queue ++ due d entered else [] := hdue d
    have hend : q.now < d ∧ d ≤ v.store.now ↔ tw.curr_time < d ∧ tw.start_time + d ≤ t := by omega
    rw [hcalls', hadded', hdue']
    simp only [hend]
    split
    · next hd =>
      have hmax : MAX_TIME < unit 4 := by decide
      rw [hrel.pending d (by omega) (by omega)]
    · rfl

end

/-- An update is all or nothing iff its time is between the clock and the end of the clock, and its callbacks are
calm. -/
theorem allOrNothing_iff {tw : TimeWheel κ} {q : Queue κ} {t : Nat} (b : Scripts κ) (depth : Nat) (hrel : Rel 1 tw q)
    (hstart : tw.start_time ≤ t) (ht : t < 2 ^ 64) :
    AllOrNothing b depth tw t ↔ (tw.start_time + tw.curr_time ≤ t ∧ t ≤ tw.start_time + MAX_TIME) ∧
      EachCall TimeWheel.store (b.plain (updateRounds tw.start_time)) (Calm MAX_DELAY_TIME) (start tw) (.update t) := by
  have hclocked := clocked_wheel (κ := κ) tw.start_time
  have hI : ∃ q, Rel 1 tw q ∧ q.start = tw.start_time := ⟨q, hrel, hrel.start.symm⟩
  obtain ⟨n, hn, hwithin, hbefore⟩ := updateRounds_cases hstart ht hrel.clock
  have hplain : ∀ w : World (TimeWheel κ) κ,
      (Nested.update TimeWheel.store b (depth + 1) (start tw) t = (.done, w) ∧ w.store.curr_time = tw.curr_time + n) ↔
        call TimeWheel.store (b.plain (updateRounds tw.start_time)) (start tw) (.update t) = (.done, w) :=
    fun w => hclocked.update_plain (w := start tw) b depth hI hn
  rw [← update_done_iff hrel hstart ht]
  constructor
  · rintro (hrejected | ⟨w, hupdate, hran⟩)
    · cases hn.symm.trans hrejected
    · -- the clock is at the time of the update, as many rounds on as there were to make
      have hmade := hclocked.rounds_done (w := start tw) b depth hI hn hupdate
      obtain ⟨⟨q', hrel', hq'⟩, hle⟩ := hmade
      have hle' : tw.curr_time + n ≤ w.store.curr_time := hle
      have hclock' := hrel'.clock
      have hstart' : w.store.start_time = tw.start_time := hrel'.start.trans hq'
      have hmax : MAX_TIME < 2 ^ 32 := by decide
      have htime := hran.time
      unfold TimeWheel.gettime at htime
      have hnow : w.store.curr_time = tw.curr_time + n := by omega
      rw [(hplain w).1 ⟨hupdate, hnow⟩]
  · intro hdone
    obtain ⟨⟨hlo, hhi⟩, -⟩ := (update_done_iff hrel hstart ht).1 hdone
    obtain ⟨w, hcall⟩ : ∃ w, call TimeWheel.store (b.plain (updateRounds tw.start_time)) (start tw) (.update t) =
        (.done, w) := ⟨_, Prod.ext hdone rfl⟩
    exact Or.inr ⟨w, ((hplain w).2 hcall).1, ranUntil_of_done hrel ht hlo hhi hcall⟩

/-- An update of a reachable wheel is all or nothing iff its time is between the clock and the end of the clock, and its
callbacks are calm. -/
theorem update_iff (b₀ b : Scripts κ) (depth₀ depth : Nat) {t₀ t : Nat} {cs : List (Call κ)}
    {w : World (TimeWheel κ) κ}
    (hrun : Nested.run TimeWheel.store b₀ depth₀ cs (start (TimeWheel.create t₀)) = (.done, w)) (hstart : t₀ ≤ t)
    (ht : t < 2 ^ 64) :
    AllOrNothing b depth w.store t ↔ (t₀ + w.store.curr_time ≤ t ∧ t ≤ t₀ + MAX_TIME) ∧
      EachCall TimeWheel.store (b.plain (updateRounds t₀)) (Calm MAX_DELAY_TIME) (start w.store) (.update t) := by
  obtain ⟨q, hrel, hq⟩ := reachable hrun
  have hstart₀ : w.store.start_time = t₀ := hrel.start.trans hq
  subst hstart₀
  exact allOrNothing_iff b depth hrel hstart ht

/-- Callbacks of which each makes an update to the time 60. -/
def toSixty : Scripts Nat := fun _ => .update 60 fun _ => .done

/-- A wheel that was created at the time 50 and updated to 60. -/
def sixty : World (TimeWheel Nat) Nat :=
  (Nested.run TimeWheel.store toSixty 1 [.add 1 10, .update 60] (start (TimeWheel.create 50))).2

theorem run_sixty : Nested.run TimeWheel.store toSixty 1 [.add 1 10, .update 60] (start (TimeWheel.create 50)) =
    (.done, sixty) := Prod.ext (by decide +kernel) (by rw [sixty])

theorem update_iff_sixty : AllOrNothing toSixty 0 sixty.store 70 ↔
    (50 + sixty.store.curr_time ≤ 70 ∧ 70 ≤ 50 + MAX_TIME) ∧
      EachCall TimeWheel.store (toSixty.plain (updateRounds 50)) (Calm MAX_DELAY_TIME) (start sixty.store)
        (.update 70) :=
  update_iff toSixty toSixty 1 0 run_sixty (by decide +kernel) (by decide +kernel)

/-- The system clock goes back from 60 to 55. -/
theorem not_update : ¬ AllOrNothing toSixty 0 sixty.store 55 := by
  obtain ⟨q, hrel, hq⟩ := reachable run_sixty
  have htime : sixty.store.start_time + sixty.store.curr_time = 60 := by decide +kernel
  have hstart : sixty.store.start_time ≤ 55 := by decide +kernel
  intro h
  obtain ⟨⟨hlo, -⟩, -⟩ := (allOrNothing_iff toSixty 0 hrel hstart (by decide +kernel)).1 h
  omega

/-- A callback that makes an update to 60 while the one to 52 is under way: that one ends at 61. -/
example : (Nested.update TimeWheel.store toSixty 2 (Nested.run TimeWheel.store toSixty 1 [.add 1 1]
    (start (TimeWheel.create 50))).2 52).2.store.gettime = 61 := by decide +kernel

/-! ## Callbacks that raise -/

/-- After any run and an update that finishes, every timer has been served iff each callback that raised was the last of
its tick. -/
theorem served_iff (b : Behaviour κ) {t₀ t : Nat} {cs : List (Call κ)} {w w' : World (TimeWheel κ) κ}
    (hrun : run TimeWheel.store b cs (start (TimeWheel.create t₀)) = (.done, w))
    (hupdate : call TimeWheel.store b w (.update t) = (.done, w')) :
    Served w'.store.curr_time w'.added w'.calls ↔
      EachRun TimeWheel.store b RaisesLast cs (start (TimeWheel.create t₀)) := by
  obtain ⟨v, l, hsame, haccount, -, hl⟩ := exists_queue hrun
  obtain ⟨v', hqueue, hsame'⟩ := (hsame.call bisim (.update t)).of_done hupdate
  obtain ⟨l', haccount', -, hdone, -⟩ := haccount.call hqueue (by simp)
  cases hdone rfl
  rw [List.append_nil] at haccount'
  have hnow : w'.store.curr_time = v'.store.now := hsame'.store.now
  rw [hsame'.calls, hsame'.added, hnow, haccount'.served_iff_nil, hl]

/-- The callback that is called first raises. -/
def firstRaises : Behaviour Nat := fun calls => ⟨[], calls.length = 1⟩

/-- Two timers for the same tick. -/
def twoTimers : List (Call Nat) := [.add 1 1, .add 2 1, .update 51]

/-- After the update to their tick. -/
def oneLost : World (TimeWheel Nat) Nat := (run TimeWheel.store firstRaises twoTimers (start (TimeWheel.create 50))).2

/-- After the next update. -/
def stillLost : World (TimeWheel Nat) Nat := (call TimeWheel.store firstRaises oneLost (.update 52)).2

theorem run_oneLost : run TimeWheel.store firstRaises twoTimers (start (TimeWheel.create 50)) = (.done, oneLost) :=
  Prod.ext (by decide) rfl

theorem call_stillLost : call TimeWheel.store firstRaises oneLost (.update 52) = (.done, stillLost) :=
  Prod.ext (by decide) rfl

theorem served_iff_stillLost : Served stillLost.store.curr_time stillLost.added stillLost.calls ↔
    EachRun TimeWheel.store firstRaises RaisesLast twoTimers (start (TimeWheel.create 50)) :=
  served_iff firstRaises run_oneLost call_stillLost

/-- The second timer is never called. -/
theorem not_served : ¬ Served stillLost.store.curr_time stillLost.added stillLost.calls := by
  rintro ⟨m, -, hcalls, hadded⟩
  have hone : stillLost.calls.length = 1 := by decide
  have htwo : (stillLost.added.filter fun a => a.1 ≤ stillLost.store.curr_time).length = 2 := by decide
  rw [hcalls.length_eq, List.length_map] at hone
  rw [hadded.length_eq, List.length_map] at htwo
  omega

end RoundGame.TimingWheel
