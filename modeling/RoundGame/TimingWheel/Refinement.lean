import RoundGame.Lib.TimerQueue
import RoundGame.TimingWheel.Placement

/-!
# The timing wheel is a queue

A wheel is `Filed` when every node is in the list of its deadline. Then the nodes with a deadline `d` are all in one
list (`pending`), in the order in which they were entered: a new node goes behind them (`Filed.addNode`),
`timewheel_shift` files those in the list that it empties anew, one after the other (`Filed.shift`), and
`timewheel_execute` takes exactly those whose deadline has come (`Filed.detach`). So the wheel and the plain queue go in
step (`bisim`), and what the queue promises holds of the wheel (`wheel_refines_queue`).

The wheel is no `Wheel.Scheme`: there a deadline is at most a fixed reach ahead of a clock that goes on for ever, and
the lists come round. Here the lists end where the clock does, at `2 ^ 32`, and a deadline can be any up to there, so
that `Filed` is stated for this wheel.
-/

namespace RoundGame.TimingWheel

open Function Timers

variable {κ : Type}

/-- `timewheel_shift` empties this list of `far` when the clock comes to `t`. -/
def Empties (t i k : Nat) : Prop := t &&& TIME_NEAR_MASK = 0 ∧ shiftLoop 6 (t >>> TIME_NEAR_SHIFT) 0 = some (i, k)

/-- Every list in which there is a node is emptied by its deadline: one of `near` when the node is executed, one of
`far` by a shift before. -/
structure Placed (tw : TimeWheel κ) : Prop where
  near : ∀ k, ∀ n ∈ tw.near k, tw.curr_time ≤ n.time ∧ n.time &&& TIME_NEAR_MASK = k
  far : ∀ i k, ∀ n ∈ tw.far i k, i < 4 ∧ k ≠ 0 ∧ ∃ t, tw.curr_time < t ∧ t ≤ n.time ∧ Empties t i k

/-- Every node is in the list of its deadline, and none is due before `lo`. -/
def Filed (tw : TimeWheel κ) (lo : Nat) : Prop :=
  ∀ x, ∀ n ∈ tw.slot x, lo ≤ n.time ∧ n.time < unit 4 ∧ slotOf tw.curr_time n.time = x

/-- The nodes with the deadline `d`. -/
def withTime (d : Nat) (l : List (TimeNode κ)) : List (TimeNode κ) := l.filter fun n => n.time = d

/-- The nodes with the deadline `d`, in their list. -/
def pending (tw : TimeWheel κ) (d : Nat) : List (TimeNode κ) := withTime d (tw.slot (slotOf tw.curr_time d))

/-! ## Lists -/

section

variable {tw tw' : TimeWheel κ} {x y : Slot} {l l' : List (TimeNode κ)} {n : TimeNode κ} {c d lo i k : Nat}

theorem withTime_append : withTime d (l ++ l') = withTime d l ++ withTime d l' := by
  simp [withTime]

theorem withTime_cons : withTime d (n :: l) = withTime d [n] ++ withTime d l := withTime_append (l := [n])

theorem withTime_eq_nil (h : ∀ n ∈ l, n.time ≠ d) : withTime d l = [] := by
  unfold withTime
  apply List.filter_eq_nil_iff.2
  intro n hn
  simpa using h n hn

theorem withTime_eq_self (h : ∀ n ∈ l, n.time = d) : withTime d l = l := by
  unfold withTime
  apply List.filter_eq_self.2
  intro n hn
  simpa using h n hn

@[simp] theorem setSlot_curr_time : (tw.setSlot x l).curr_time = tw.curr_time := by cases x <;> rfl

@[simp] theorem setSlot_start_time : (tw.setSlot x l).start_time = tw.start_time := by cases x <;> rfl

@[simp] theorem slot_setSlot_self : (tw.setSlot x l).slot x = l := by
  cases x with
  | near k => simp [TimeWheel.setSlot, TimeWheel.slot]
  | far i k => simp [TimeWheel.setSlot, TimeWheel.slot]

theorem slot_setSlot_ne (h : y ≠ x) : (tw.setSlot x l).slot y = tw.slot y := by
  cases x with
  | near k =>
    cases y with
    | near k' =>
      have hk : k' ≠ k := fun he => h (by rw [he])
      exact update_of_ne hk l tw.near
    | far i' k' => rfl
  | far i k =>
    cases y with
    | near k' => rfl
    | far i' k' =>
      show update tw.far i (update (tw.far i) k l) i' k' = tw.far i' k'
      by_cases hi : i' = i
      · subst hi
        have hk : k' ≠ k := fun he => h (by rw [he])
        rw [update_self, update_of_ne hk]
      · rw [update_of_ne hi]

/-- Nodes in another list have another deadline. -/
theorem Filed.withTime_slot (h : Filed tw lo) (hx : slotOf tw.curr_time d ≠ x) : withTime d (tw.slot x) = [] := by
  apply withTime_eq_nil
  rintro n hn rfl
  exact hx (h x n hn).2.2

/-! ## Operations -/

theorem Filed.addNode (h : Filed tw lo) (hc : tw.curr_time < unit 4) (hlo : lo ≤ n.time) (hn : n.time < unit 4) :
    ∃ tw', tw.addNode n = some tw' ∧ tw'.curr_time = tw.curr_time ∧ tw'.start_time = tw.start_time ∧ Filed tw' lo ∧
      ∀ d, pending tw' d = pending tw d ++ withTime d [n] := by
  let x := slotOf tw.curr_time n.time
  have hx : TimeWheel.inRange x = true := inRange_slotOf hc hn
  refine ⟨tw.setSlot x (tw.slot x ++ [n]), ?_, setSlot_curr_time, setSlot_start_time, ?_, ?_⟩
  · unfold TimeWheel.addNode
    rw [if_pos hx]
  · intro y m hm
    rw [setSlot_curr_time]
    by_cases hy : y = x
    · rw [hy, slot_setSlot_self] at hm
      rcases List.mem_append.1 hm with hm | hm
      · rw [hy]
        exact h x m hm
      · rw [List.mem_singleton.1 hm]
        exact ⟨hlo, hn, hy.symm⟩
    · rw [slot_setSlot_ne hy] at hm
      exact h y m hm
  · intro d
    unfold pending
    rw [setSlot_curr_time]
    by_cases hd : slotOf tw.curr_time d = x
    · rw [hd, slot_setSlot_self, withTime_append]
    · have hnot : withTime d [n] = [] := by
        apply withTime_eq_nil
        intro m hm he
        rw [List.mem_singleton.1 hm] at he
        exact hd (by rw [← he])
      rw [slot_setSlot_ne hd, hnot, List.append_nil]

theorem Filed.addNodes (h : Filed tw lo) (hc : tw.curr_time < unit 4)
    (hl : ∀ n ∈ l, lo ≤ n.time ∧ n.time < unit 4) :
    ∃ tw', tw.addNodes l = some tw' ∧ tw'.curr_time = tw.curr_time ∧ tw'.start_time = tw.start_time ∧ Filed tw' lo ∧
      ∀ d, pending tw' d = pending tw d ++ withTime d l := by
  induction l generalizing tw with
  | nil => exact ⟨tw, rfl, rfl, rfl, h, fun d => (List.append_nil _).symm⟩
  | cons n l ih =>
    obtain ⟨hlo, hn⟩ := hl n List.mem_cons_self
    obtain ⟨tw₁, hadd, hcurr₁, hstart₁, h₁, hpend₁⟩ := h.addNode hc hlo hn
    obtain ⟨tw', hall, hcurr, hstart, h', hpend⟩ :=
      ih h₁ (hcurr₁ ▸ hc) fun m hm => hl m (List.mem_cons_of_mem _ hm)
    refine ⟨tw', ?_, hcurr.trans hcurr₁, hstart.trans hstart₁, h', ?_⟩
    · unfold TimeWheel.addNodes
      rw [hadd]
      exact hall
    · intro d
      rw [hpend, hpend₁, List.append_assoc, ← withTime_cons]

/-- The wheel at the time `c + 1`, after the list of `far` has been taken. -/
theorem Filed.taken (h : Filed tw (tw.curr_time + 1)) (hturn : Turn (tw.curr_time + 1) i) (hi : i < 4)
    (hc : tw.curr_time + 1 < unit 4) (hk : k = (tw.curr_time + 1) / unit i % 64) :
    let tw₁ := ({ tw with curr_time := tw.curr_time + 1 } : TimeWheel κ).setSlot (.far i k) []
    Filed tw₁ (tw.curr_time + 1) ∧ ∀ d, tw.curr_time < d → d < unit 4 →
      pending tw₁ d ++ withTime d (tw.far i k) = pending tw d := by
  subst hk
  intro tw₁
  constructor
  · intro y m hm
    by_cases hy : y = .far i ((tw.curr_time + 1) / unit i % 64)
    · rw [hy, slot_setSlot_self] at hm
      cases hm
    · rw [slot_setSlot_ne hy] at hm
      obtain ⟨hlo, hm, hslot⟩ := h y m hm
      refine ⟨hlo, hm, ?_⟩
      rw [setSlot_curr_time]
      rcases hturn.place hi hlo hc hm with ⟨-, hfar⟩ | ⟨hsame, -⟩
      · exact absurd (hslot.symm.trans hfar) hy
      · exact hsame.trans hslot
  · intro d hlt hd
    unfold pending
    rw [setSlot_curr_time]
    rcases hturn.place hi hlt hc hd with ⟨hblock, hfar⟩ | ⟨hsame, hne⟩
    · have hnew : slotOf (tw.curr_time + 1) d ≠ .far i ((tw.curr_time + 1) / unit i % 64) :=
        slotOf_ne_far hc hd hblock _
      have hnone : withTime d (tw.slot (slotOf (tw.curr_time + 1) d)) = [] :=
        h.withTime_slot (by rw [hfar]; exact hnew.symm)
      rw [slot_setSlot_ne hnew, hfar]
      show withTime d (tw.slot _) ++ _ = _
      rw [hnone, List.nil_append]
      rfl
    · have hnone : withTime d (tw.slot (.far i ((tw.curr_time + 1) / unit i % 64))) = [] := h.withTime_slot hne
      rw [hsame, slot_setSlot_ne hne]
      show withTime d (tw.slot _) ++ withTime d (tw.slot (.far i _)) = _
      rw [hnone, List.append_nil]

theorem Filed.shift (h : Filed tw (tw.curr_time + 1)) (hc : tw.curr_time + 1 ≤ MAX_TIME) :
    ∃ tw', tw.shift = some tw' ∧ tw'.curr_time = tw.curr_time + 1 ∧ tw'.start_time = tw.start_time ∧
      Filed tw' (tw.curr_time + 1) ∧ ∀ d, tw.curr_time < d → d < unit 4 → pending tw' d = pending tw d := by
  have hmax : MAX_TIME < unit 4 := by decide
  have hunit : unit 0 = 256 := rfl
  have hmod : (tw.curr_time + 1) % 2 ^ 32 = tw.curr_time + 1 := Nat.mod_eq_of_lt (Nat.lt_of_le_of_lt hc hmax)
  unfold TimeWheel.shift
  simp only [hmod, if_neg (Nat.not_lt.2 hc), and_near, shift_near]
  by_cases hnear : (tw.curr_time + 1) % 256 = 0
  · obtain ⟨i, hi, hturn⟩ : ∃ i < 4, Turn (tw.curr_time + 1) i :=
      exists_turn (Nat.succ_pos _) (by omega) (Nat.dvd_of_mod_eq_zero hnear)
    have hloop := hturn.shiftLoop_eq (n := 6) (Nat.zero_le i) (by omega)
    obtain ⟨h₁, hpend₁⟩ := h.taken hturn hi (by omega) rfl
    have hfiles : ∀ n ∈ tw.far i ((tw.curr_time + 1) / unit i % 64), tw.curr_time + 1 ≤ n.time ∧ n.time < unit 4 := by
      intro n hn
      obtain ⟨hlo, hlt, -⟩ := h (.far i _) n hn
      exact ⟨hlo, hlt⟩
    obtain ⟨tw', hall, hcurr, hstart, h', hpend⟩ :=
      h₁.addNodes (by rw [setSlot_curr_time]; show tw.curr_time + 1 < unit 4; omega) hfiles
    rw [if_neg (not_not.2 hnear), hloop]
    simp only
    have hrange : TimeWheel.inRange (.far i ((tw.curr_time + 1) / unit i % 64)) = true := decide_eq_true hi
    rw [if_pos hrange]
    rw [setSlot_curr_time] at hcurr
    rw [setSlot_start_time] at hstart
    refine ⟨tw', hall, hcurr, hstart, h', ?_⟩
    intro d hlt hd
    rw [hpend, hpend₁ d hlt hd]
  · have hblock : tw.curr_time / unit 0 = (tw.curr_time + 1) / unit 0 := by
      rw [hunit]
      omega
    rw [if_pos hnear]
    refine ⟨_, rfl, rfl, rfl, ?_, ?_⟩
    · intro x n hn
      obtain ⟨hlo, hlt, hslot⟩ := h x n hn
      refine ⟨hlo, hlt, ?_⟩
      rw [← hslot]
      exact (slotOf_congr hblock).symm
    · intro d _ _
      unfold pending
      rw [slotOf_congr hblock]
      rfl

theorem Filed.detach (h : Filed tw tw.curr_time) (hc : tw.curr_time < unit 4) :
    tw.detach.1 = (pending tw tw.curr_time).map TimeNode.callback ∧ tw.detach.2.curr_time = tw.curr_time ∧
      tw.detach.2.start_time = tw.start_time ∧ Filed tw.detach.2 (tw.curr_time + 1) ∧
      ∀ d, tw.curr_time < d → d < unit 4 → pending tw.detach.2 d = pending tw d := by
  have hdue : ∀ n ∈ tw.slot (.near (tw.curr_time % 256)), n.time = tw.curr_time := by
    intro n hn
    obtain ⟨-, hlt, hslot⟩ := h _ n hn
    exact eq_of_slotOf hc hlt hslot
  unfold TimeWheel.detach
  rw [and_near]
  refine ⟨?_, setSlot_curr_time, setSlot_start_time, ?_, ?_⟩
  · unfold pending
    rw [slotOf_self, withTime_eq_self hdue]
  · intro x n hn
    rw [setSlot_curr_time]
    by_cases hx : x = .near (tw.curr_time % 256)
    · rw [hx, slot_setSlot_self] at hn
      cases hn
    · rw [slot_setSlot_ne hx] at hn
      obtain ⟨hlo, hlt, hslot⟩ := h x n hn
      refine ⟨?_, hlt, hslot⟩
      rcases Nat.eq_or_lt_of_le hlo with heq | hlt'
      · rw [← heq, slotOf_self] at hslot
        exact absurd hslot.symm hx
      · exact hlt'
  · intro d hlt hd
    unfold pending
    rw [setSlot_curr_time]
    have hne : slotOf tw.curr_time d ≠ .near (tw.curr_time % 256) := by
      intro he
      have := eq_of_slotOf hc hd he
      omega
    rw [slot_setSlot_ne hne]

/-- A turn empties its list. -/
theorem Turn.empties {t : Nat} (h : Turn t i) (hi : i < 4) : Empties t i (t / unit i % 64) := by
  unfold Empties
  rw [and_near, shift_near]
  exact ⟨Nat.mod_eq_zero_of_dvd (Nat.dvd_trans (unit_dvd_unit (Nat.zero_le i)) h.1),
    h.shiftLoop_eq (Nat.zero_le i) (by omega)⟩

/-- The list that a shift empties stays empty in it: its nodes come to other lists. -/
theorem Filed.shift_empties (h : Filed tw (tw.curr_time + 1)) (hc : tw.curr_time + 1 ≤ MAX_TIME)
    (he : Empties (tw.curr_time + 1) i k) (hs : tw.shift = some tw') : tw'.far i k = [] := by
  have hmax : MAX_TIME < unit 4 := by decide
  obtain ⟨hnear, hloop⟩ := he
  rw [and_near] at hnear
  obtain ⟨j, hj, hturn⟩ : ∃ j < 4, Turn (tw.curr_time + 1) j :=
    exists_turn (Nat.succ_pos _) (by omega) (Nat.dvd_of_mod_eq_zero hnear)
  rw [shift_near, hturn.shiftLoop_eq (Nat.zero_le j) (by omega)] at hloop
  obtain ⟨rfl, rfl⟩ := Prod.mk.inj (Option.some.inj hloop)
  obtain ⟨tw₁, hs₁, hcurr, -, hfiled, -⟩ := h.shift hc
  obtain rfl := Option.some.inj (hs.symm.trans hs₁)
  apply List.eq_nil_iff_forall_not_mem.2
  intro n hn
  obtain ⟨hlo, hlt, hslot⟩ := hfiled (.far j _) n hn
  rw [hcurr] at hslot
  rcases hturn.place hj hlo (by omega) hlt with ⟨hblock, -⟩ | ⟨hsame, hne⟩
  · exact slotOf_ne_far (by omega) hlt hblock _ hslot
  · exact hne (hsame.symm.trans hslot)

theorem Filed.placed (h : Filed tw lo) (hlo : tw.curr_time ≤ lo) (hc : tw.curr_time < unit 4) : Placed tw := by
  constructor
  · intro k n hn
    obtain ⟨hle, hlt, hslot⟩ := h (.near k) n hn
    rw [and_near]
    exact ⟨by omega, (slotOf_eq_near hc hlt hslot).2⟩
  · intro i k n hn
    obtain ⟨hle, hlt, hslot⟩ := h (.far i k) n hn
    obtain ⟨hi, hat, rfl⟩ := slotOf_eq_far hc hlt hslot
    have hcn : tw.curr_time < n.time := by
      refine Nat.lt_of_le_of_ne (by omega) fun he => hat.2 ?_
      rw [he]
    obtain ⟨hafter, hbefore, hturn, hdiv⟩ := hat.turn hcn
    have hempties := hturn.empties hi
    have hdigit := hturn.2
    rw [hdiv] at hempties hdigit
    exact ⟨hi, hdigit, _, hafter, hbefore, hempties⟩

end

/-! ## The wheel and the queue -/

/-- The wheel and the queue have the same timers, `e` being 1 when those that are due have been taken, and 0 before. -/
structure Rel (e : Nat) (tw : TimeWheel κ) (q : Queue κ) : Prop where
  start : tw.start_time = q.start
  now : tw.curr_time = q.now
  clock : tw.curr_time ≤ MAX_TIME
  filed : Filed tw (tw.curr_time + e)
  sorted : Sorted q.queue
  bound : ∀ a ∈ q.queue, tw.curr_time + e ≤ a.1 ∧ a.1 < unit 4
  pending : ∀ d, tw.curr_time + e ≤ d → d < unit 4 →
    (pending tw d).map (fun n => (n.time, n.callback)) = due d q.queue

section

variable {tw tw' : TimeWheel κ} {q : Queue κ} {d e t : Nat}

theorem rel_create (t : Nat) : Rel 1 (TimeWheel.create t : TimeWheel κ) ⟨t, 0, []⟩ := by
  refine ⟨rfl, rfl, Nat.zero_le _, ?_, .nil, ?_, ?_⟩
  · intro x n hn
    cases x <;> cases hn
  · exact fun a ha => by cases ha
  · intro d _ _
    unfold TimingWheel.pending
    cases slotOf (TimeWheel.create t : TimeWheel κ).curr_time d <;> rfl

theorem Rel.lt (h : Rel e tw q) : tw.curr_time < unit 4 := by
  have hmax : MAX_TIME < unit 4 := by decide
  have := h.clock
  omega

theorem Rel.add (h : Rel 1 tw q) (k : κ) (t : Nat) {todo : Nat → Nat → Nat → Option Nat} :
    Option.Rel (Rel 1) (tw.addTime k t) ((Queue.store MAX_DELAY_TIME MAX_TIME todo).add q k t) := by
  unfold TimeWheel.addTime Queue.store
  by_cases ht : 0 < t ∧ t ≤ MAX_DELAY_TIME
  · have hsum : tw.curr_time + t < unit 4 := by
      have hmax : MAX_TIME + MAX_DELAY_TIME < unit 4 := by decide
      have := h.clock
      omega
    have hmod : (tw.curr_time + t) % 2 ^ 32 = tw.curr_time + t := Nat.mod_eq_of_lt hsum
    let n : TimeNode κ := ⟨tw.curr_time + t, k⟩
    obtain ⟨tw', hadd, hcurr, hstart, hfiled, hpend⟩ :=
      h.filed.addNode (n := n) h.lt (Nat.add_le_add_left ht.1 tw.curr_time) hsum
    have hadd' : tw.addNode ⟨tw.curr_time + t, k⟩ = some tw' := hadd
    simp only [if_pos ht, if_pos ht.symm, hmod, hadd', ← h.now]
    refine .some ⟨hstart.trans h.start, hcurr, hcurr ▸ h.clock, hcurr ▸ hfiled, sorted_enqueue h.sorted, ?_, ?_⟩
    · intro a ha
      rw [hcurr]
      rcases mem_enqueue.1 ha with rfl | ha
      · exact ⟨Nat.add_le_add_left ht.1 tw.curr_time, hsum⟩
      · exact h.bound a ha
    · intro d hlo hd
      rw [hcurr] at hlo
      rw [hpend, List.map_append, h.pending d hlo hd, due_enqueue h.sorted]
      congr 1
      unfold withTime due
      by_cases hnd : tw.curr_time + t = d
      · simp [n, hnd]
      · simp [n, hnd]
  · have ht' : ¬(t ≤ MAX_DELAY_TIME ∧ 0 < t) := fun hn => ht hn.symm
    simp only [if_neg ht, if_neg ht']
    exact .none

theorem Rel.shift (h : Rel 1 tw q) {todo : Nat → Nat → Nat → Option Nat} :
    Option.Rel (Rel 0) tw.shift ((Queue.store MAX_DELAY_TIME MAX_TIME todo).shift q) := by
  have hclock := h.clock
  by_cases hnow : tw.curr_time < MAX_TIME
  · obtain ⟨tw', hshift, hcurr, hstart, hfiled, hpend⟩ := h.filed.shift hnow
    have hq : (Queue.store MAX_DELAY_TIME MAX_TIME todo).shift q = some { q with now := q.now + 1 } :=
      if_pos (h.now ▸ hnow)
    rw [hshift, hq]
    refine .some ⟨hstart.trans h.start, hcurr.trans (congrArg (· + 1) h.now), hcurr ▸ hnow, hcurr ▸ hfiled, h.sorted,
      ?_, ?_⟩
    · intro a ha
      rw [hcurr]
      exact h.bound a ha
    · intro d hlo hd
      rw [hcurr] at hlo
      rw [hpend d hlo hd]
      exact h.pending d hlo hd
  · have hq : (Queue.store (κ := κ) MAX_DELAY_TIME MAX_TIME todo).shift q = none := if_neg (h.now ▸ hnow)
    have hmax : MAX_TIME + 1 < 2 ^ 32 := by decide
    have hmod : (tw.curr_time + 1) % 2 ^ 32 = tw.curr_time + 1 := Nat.mod_eq_of_lt (by omega)
    have hnone : tw.shift = none := by
      unfold TimeWheel.shift
      simp only [hmod]
      exact if_pos (by omega)
    rw [hnone, hq]
    exact .none

theorem Rel.detach (h : Rel 0 tw q) {todo : Nat → Nat → Nat → Option Nat} :
    tw.detach.1 = ((Queue.store MAX_DELAY_TIME MAX_TIME todo).detach q).1 ∧
      Rel 1 tw.detach.2 ((Queue.store MAX_DELAY_TIME MAX_TIME todo).detach q).2 := by
  obtain ⟨hdue, hcurr, hstart, hfiled, hpend⟩ := h.filed.detach h.lt
  have hlow : ∀ a ∈ q.queue, q.now ≤ a.1 := fun a ha => h.now ▸ (h.bound a ha).1
  constructor
  · have hqueue := h.pending tw.curr_time (Nat.le_refl _) h.lt
    show _ = (q.queue.takeWhile fun a => a.1 ≤ q.now).map Prod.snd
    rw [hdue, takeWhile_eq_due h.sorted hlow, ← h.now, ← hqueue, List.map_map]
    rfl
  · refine ⟨hstart.trans h.start, hcurr.trans h.now, hcurr ▸ h.clock, hcurr ▸ hfiled,
      h.sorted.sublist (List.dropWhile_sublist _), ?_, ?_⟩
    · intro a ha
      have hlt : q.now < a.1 := mem_dropWhile h.sorted a ha
      rw [hcurr, h.now]
      exact ⟨hlt, (h.bound a ((List.dropWhile_sublist _).mem ha)).2⟩
    · intro d hlo hd
      rw [hcurr] at hlo
      show _ = due d (q.queue.dropWhile fun a => a.1 ≤ q.now)
      rw [hpend d hlo hd, h.pending d (by omega) hd, due_dropWhile (by rw [← h.now]; exact hlo)]

/-- **The wheel and the queue go in step.** -/
theorem bisim :
    Bisim (TimeWheel.store (κ := κ)) (Queue.store MAX_DELAY_TIME MAX_TIME updateRounds) (Rel 1) (Rel 0) where
  now := fun h => h.now
  add := fun h k t => h.add k t
  todo := fun {s q} h t => by
    show updateRounds s.start_time s.curr_time t = updateRounds q.start q.now t
    rw [h.start, h.now]
  shift := fun h => h.shift
  detach := fun h => h.detach

theorem Rel.placed (h : Rel e tw q) : Placed tw := h.filed.placed (Nat.le_add_right _ _) h.lt

end

/-- The number of rounds, for a time that the wheel can reach. -/
theorem updateRounds_eq {start now t : Nat} (hlo : start + now ≤ t) (hhi : t ≤ start + MAX_TIME) :
    updateRounds start now t = some (t - (start + now)) := by
  have hmax : MAX_TIME < 2 ^ 64 := by decide
  unfold updateRounds
  rw [if_neg (by omega)]
  congr 1
  omega

/-- The deadline of a timer was not cut off. -/
theorem added_lt {w : World (TimeWheel κ) κ} {v : World (Queue κ) κ}
    (hsame : Same (Rel 1) (Rel 0) w v) (hlaw : Law v []) : ∀ a ∈ w.added, a.1 < 2 ^ 32 := by
  intro a ha
  rw [hsame.added] at ha
  have hrel := hsame.store
  rcases Nat.lt_or_ge v.store.now a.1 with hlater | hpast
  · have hdue : a ∈ due a.1 v.added := List.mem_filter.2 ⟨ha, decide_eq_true rfl⟩
    rw [← hlaw.pending a.1 hlater] at hdue
    exact (hrel.bound a (List.mem_filter.1 hdue).1).2
  · have hlt := hrel.lt
    rw [hrel.now] at hlt
    exact Nat.lt_of_le_of_lt hpast hlt

/-- **The wheel is a queue.** Callbacks that do not raise may enter timers; updates are in time. Then the run ends as
that of the queue does, with no list out of range. The calls are those of the timers whose deadline has come, each at
its deadline, in the order of the deadlines and then of `timewheel_add_time`; no deadline is cut off to 32 bits; and
every node was always in a list that is emptied by its deadline. -/
theorem wheel_refines_queue (b : Behaviour κ) (t : Nat) (cs : List (Call κ)) (hb : b.Valid MAX_DELAY_TIME)
    (hcs : Timely MAX_DELAY_TIME (t + MAX_TIME) t cs) :
    ∃ w v, run TimeWheel.store b cs (start (TimeWheel.create t)) = (.done, w) ∧
      run (Queue.store MAX_DELAY_TIME MAX_TIME updateRounds) b cs (start ⟨t, 0, []⟩) = (.done, v) ∧
      w.calls = v.calls ∧ w.added = v.added ∧
      t + w.store.curr_time = lastUpdate t cs ∧ w.calls = upto w.store.curr_time w.added ∧
      (∀ a ∈ w.added, a.1 < 2 ^ 32) ∧ ∀ tw ∈ w.trace, Placed tw := by
  obtain ⟨v, hqueue, haccount, hstart, hlast⟩ :=
    (account_start t).run_timely hb (fun _ _ _ => updateRounds_eq) hcs
  have hlaw := haccount.law
  have hagree := run_bisim (b := b) bisim (same_start (rel_create t)) cs
  rw [hqueue] at hagree
  obtain ⟨hexit, hsame⟩ := hagree
  have hnow := hsame.store.now
  have hcalls := hlaw.calls
  rw [List.map_nil, List.append_nil] at hcalls
  have hplaced := (List.forall₂_and_left _ _).1 (hsame.trace.imp fun tw q h => ⟨h.elim Rel.placed Rel.placed, h⟩)
  refine ⟨_, v, Prod.ext hexit rfl, hqueue, hsame.calls, hsame.added, ?_, ?_, added_lt hsame hlaw, hplaced.1⟩
  · have hlast' : v.store.start + v.store.now = lastUpdate t cs := hlast
    rw [hnow, ← hlast', hstart]
    rfl
  · rw [hsame.calls, hsame.added, hnow]
    exact hcalls

/-- A timer for the tick 2 enters one for the tick 1002, filed in `far`; both are called. -/
theorem wheel_refines_queue_two :
    let b : Behaviour Nat := fun calls => if calls.length = 1 then ⟨[(7, 1000)], false⟩ else ⟨[], false⟩
    let cs : List (Call Nat) := [.add 5 2, .update 60, .update 1200]
    ∃ w v, run TimeWheel.store b cs (start (TimeWheel.create 50)) = (.done, w) ∧
      run (Queue.store MAX_DELAY_TIME MAX_TIME updateRounds) b cs (start ⟨50, 0, []⟩) = (.done, v) ∧
      w.calls = v.calls ∧ w.added = v.added ∧
      50 + w.store.curr_time = lastUpdate 50 cs ∧ w.calls = upto w.store.curr_time w.added ∧
      (∀ a ∈ w.added, a.1 < 2 ^ 32) ∧ ∀ tw ∈ w.trace, Placed tw := by
  intro b cs
  refine wheel_refines_queue b 50 cs ?_ (by simp [cs, Timely, MAX_DELAY_TIME, MAX_TIME])
  intro calls
  by_cases h : calls.length = 1
  · simp [b, h, MAX_DELAY_TIME]
  · simp [b, h]

end RoundGame.TimingWheel
