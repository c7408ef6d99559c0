import RoundGame.TimingWheel.Twheel

/-!
# Where a timer is filed

A tick is written with one digit of eight bits and four of six bits. A timer whose deadline differs from the clock in
the lowest digit only is filed in `near`, by this digit; any other one in `far`, by the highest digit in which the two
differ (`slotOf_near`, `slotOf_far`).

When the clock comes to a multiple of 256, the lowest of the other digits that is not 0 has just changed (`Turn`), and
`timewheel_shift` empties the list of this digit. The place of a timer that is not overdue stays the same then, but for
those in this list (`Turn.place`); and every list of `far` in which there is a timer is emptied before its deadline
(`At.turn`).
-/

namespace RoundGame.TimingWheel

/-- The ticks of one list of the level `i` of `far`; a list of `near` has one. -/
def unit (i : Nat) : Nat := 2 ^ (8 + 6 * i)

theorem unit_succ (i : Nat) : unit (i + 1) = unit i * 64 := by
  unfold unit
  rw [Nat.mul_succ, ← Nat.add_assoc, Nat.pow_add]

theorem unit_pos (i : Nat) : 0 < unit i := Nat.two_pow_pos _

theorem div_unit_succ (c i : Nat) : c / unit (i + 1) = c / unit i / 64 := by
  rw [unit_succ, Nat.div_div_eq_div_mul]

theorem unit_dvd_unit {i j : Nat} (h : i ≤ j) : unit i ∣ unit j := Nat.pow_dvd_pow 2 (by omega)

/-! ## Masks and shifts -/

theorem or_mask_eq_iff (n x y : Nat) : x ||| (2 ^ n - 1) = y ||| (2 ^ n - 1) ↔ x / 2 ^ n = y / 2 ^ n := by
  constructor
  · intro h
    apply Nat.eq_of_testBit_eq
    intro i
    have hbit := congrArg (fun z => z.testBit (i + n)) h
    have hno : ¬ i + n < n := by omega
    simpa [Nat.testBit_or, Nat.testBit_two_pow_sub_one, Nat.testBit_div_two_pow, hno] using hbit
  · intro h
    apply Nat.eq_of_testBit_eq
    intro i
    by_cases hi : i < n
    · simp [Nat.testBit_or, Nat.testBit_two_pow_sub_one, hi]
    · have hbit := congrArg (fun z => z.testBit (i - n)) h
      simpa [Nat.testBit_or, Nat.testBit_two_pow_sub_one, Nat.testBit_div_two_pow, hi,
        Nat.sub_add_cancel (Nat.le_of_not_lt hi)] using hbit

theorem or_near_iff (x y : Nat) : x ||| TIME_NEAR_MASK = y ||| TIME_NEAR_MASK ↔ x / unit 0 = y / unit 0 :=
  or_mask_eq_iff 8 x y

theorem or_far_iff (x y i : Nat) :
    x / unit i ||| TIME_FAR_MASK = y / unit i ||| TIME_FAR_MASK ↔ x / unit (i + 1) = y / unit (i + 1) := by
  rw [div_unit_succ, div_unit_succ]
  exact or_mask_eq_iff 6 _ _

theorem shift_near (x : Nat) : x >>> TIME_NEAR_SHIFT = x / unit 0 := Nat.shiftRight_eq_div_pow x 8

theorem shift_far (x i : Nat) : (x / unit i) >>> TIME_FAR_SHIFT = x / unit (i + 1) := by
  rw [div_unit_succ]
  exact Nat.shiftRight_eq_div_pow _ 6

theorem and_near (x : Nat) : x &&& TIME_NEAR_MASK = x % 256 := Nat.and_two_pow_sub_one_eq_mod x 8

theorem and_far (x : Nat) : x &&& TIME_FAR_MASK = x % 64 := Nat.and_two_pow_sub_one_eq_mod x 6

/-! ## The place of a timer -/

theorem div_unit_eq {c d i j : Nat} (hij : i ≤ j) (h : d / unit i = c / unit i) : d / unit j = c / unit j := by
  obtain ⟨m, hm⟩ := unit_dvd_unit hij
  rw [hm, ← Nat.div_div_eq_div_mul, ← Nat.div_div_eq_div_mul, h]

/-- The digit of the level `i` is the highest in which `c` and `d` differ. -/
def At (c d i : Nat) : Prop := d / unit (i + 1) = c / unit (i + 1) ∧ d / unit i ≠ c / unit i

section

variable {c d i j k n : Nat}

theorem At.ne_of_le (h : At c d j) (hij : i ≤ j) : d / unit i ≠ c / unit i :=
  fun he => h.2 (div_unit_eq hij he)

theorem near_or_at (hc : c < unit n) (hd : d < unit n) : d / unit 0 = c / unit 0 ∨ ∃ i < n, At c d i := by
  have htop : d / unit n = c / unit n := by
    rw [Nat.div_eq_of_lt hc, Nat.div_eq_of_lt hd]
  clear hc hd
  induction n with
  | zero => exact Or.inl htop
  | succ n ih =>
    by_cases hn : d / unit n = c / unit n
    · rcases ih hn with h | ⟨i, hi, h⟩
      · exact Or.inl h
      · exact Or.inr ⟨i, by omega, h⟩
    · exact Or.inr ⟨n, Nat.lt_succ_self n, htop, hn⟩

theorem farLoop_eq (h : At c d j) (hi : i ≤ j) (hj : j < i + n) :
    farLoop n i (c / unit i) (d / unit i) = (j, d / unit j) := by
  induction n generalizing i with
  | zero => omega
  | succ n ih =>
    unfold farLoop
    rw [shift_far, shift_far]
    by_cases hij : i = j
    · subst hij
      rw [if_pos ((or_far_iff c d i).2 h.1.symm)]
    · have hne : d / unit (i + 1) ≠ c / unit (i + 1) := h.ne_of_le (by omega)
      rw [if_neg fun he => hne ((or_far_iff c d i).1 he).symm]
      exact ih (by omega) (by omega)

theorem slotOf_near (h : d / unit 0 = c / unit 0) : slotOf c d = .near (d % 256) := by
  unfold slotOf
  rw [if_pos ((or_near_iff d c).2 h), and_near]

theorem slotOf_far (h : At c d i) (hi : i < 4) : slotOf c d = .far i (d / unit i % 64) := by
  have hloop : farLoop 4 0 (c / unit 0) (d / unit 0) = (i, d / unit i) :=
    farLoop_eq h (Nat.zero_le i) (by omega)
  unfold slotOf
  rw [if_neg fun he => h.ne_of_le (Nat.zero_le i) ((or_near_iff d c).1 he), shift_near, shift_near, hloop]
  simp only [and_far]

theorem slotOf_eq_near (hc : c < unit 4) (hd : d < unit 4) (h : slotOf c d = .near k) :
    d / unit 0 = c / unit 0 ∧ d % 256 = k := by
  rcases near_or_at hc hd with hnear | ⟨i, hi, hat⟩
  · rw [slotOf_near hnear] at h
    exact ⟨hnear, Slot.near.inj h⟩
  · rw [slotOf_far hat hi] at h
    cases h

theorem slotOf_eq_far (hc : c < unit 4) (hd : d < unit 4) (h : slotOf c d = .far i k) :
    i < 4 ∧ At c d i ∧ d / unit i % 64 = k := by
  rcases near_or_at hc hd with hnear | ⟨j, hj, hat⟩
  · rw [slotOf_near hnear] at h
    cases h
  · rw [slotOf_far hat hj] at h
    obtain ⟨rfl, hk⟩ := Slot.far.inj h
    exact ⟨hj, hat, hk⟩

theorem inRange_slotOf (hc : c < unit 4) (hd : d < unit 4) : TimeWheel.inRange (slotOf c d) = true := by
  rcases near_or_at hc hd with hnear | ⟨i, hi, hat⟩
  · rw [slotOf_near hnear]
    rfl
  · rw [slotOf_far hat hi]
    exact decide_eq_true hi

/-- A timer that is due is in the list of `near` that `timewheel_execute` takes. -/
theorem slotOf_self (c : Nat) : slotOf c c = .near (c % 256) := slotOf_near rfl

theorem eq_of_slotOf (hc : c < unit 4) (hd : d < unit 4) (h : slotOf c d = .near (c % 256)) : d = c := by
  obtain ⟨hblock, hdigit⟩ := slotOf_eq_near hc hd h
  have hunit : unit 0 = 256 := rfl
  rw [hunit] at hblock
  omega

end

/-! ## Turns -/

/-- At the time `t` the digit of the level `i` changes, and no higher one. -/
def Turn (t i : Nat) : Prop := unit i ∣ t ∧ t / unit i % 64 ≠ 0

section

variable {c d t i j n : Nat}

theorem Turn.not_dvd (h : Turn t i) (hij : i < j) : ¬ unit j ∣ t := by
  intro hj
  have hdvd : unit i * 64 ∣ t := unit_succ i ▸ Nat.dvd_trans (unit_dvd_unit hij) hj
  exact h.2 (Nat.mod_eq_zero_of_dvd (Nat.dvd_div_of_mul_dvd hdvd))

theorem exists_turn (hpos : 0 < t) (hlt : t < unit n) (h : unit 0 ∣ t) : ∃ i < n, Turn t i := by
  have htop : ¬ unit n ∣ t := fun hn => absurd (Nat.le_of_dvd hpos hn) (by omega)
  clear hlt
  induction n with
  | zero => exact absurd h htop
  | succ n ih =>
    by_cases hn : unit n ∣ t
    · refine ⟨n, Nat.lt_succ_self n, hn, fun hdigit => htop ?_⟩
      rw [unit_succ]
      exact (Nat.dvd_div_iff_mul_dvd hn).1 (Nat.dvd_of_mod_eq_zero hdigit)
    · obtain ⟨i, hi, hturn⟩ := ih hn
      exact ⟨i, by omega, hturn⟩

theorem Turn.shiftLoop_eq (h : Turn t i) (hj : j ≤ i) (hi : i < j + n) :
    shiftLoop n (t / unit j) j = some (i, t / unit i % 64) := by
  induction n generalizing j with
  | zero => omega
  | succ n ih =>
    unfold shiftLoop
    rw [and_far, shift_far]
    by_cases hij : j = i
    · subst hij
      have hpos : t / unit j ≠ 0 := fun h0 => h.2 (by rw [h0])
      rw [if_neg hpos, if_pos h.2]
    · have hdvd : unit j * 64 ∣ t := unit_succ j ▸ Nat.dvd_trans (unit_dvd_unit (by omega)) h.1
      have hdigit : t / unit j % 64 = 0 := Nat.mod_eq_zero_of_dvd (Nat.dvd_div_of_mul_dvd hdvd)
      have hpos : t / unit j ≠ 0 := by
        intro h0
        have hi0 : t / unit i = 0 / unit i := div_unit_eq hj (h0.trans (Nat.zero_div _).symm)
        exact h.2 (by rw [hi0, Nat.zero_div])
      rw [if_neg hpos, if_neg (not_not.2 hdigit)]
      exact ih (by omega) (by omega)

/-- The digits above stay, and the digit itself is one more. -/
theorem Turn.div_eq (h : Turn (c + 1) i) (hij : i < j) : (c + 1) / unit j = c / unit j :=
  Nat.succ_div_of_not_dvd (h.not_dvd hij)

theorem Turn.div_succ (h : Turn (c + 1) i) : (c + 1) / unit i = c / unit i + 1 := Nat.succ_div_of_dvd h.1

/-- **The clock moves on by one.** A timer that is not overdue is in the list of the digit that has changed, or its
place stays the same. -/
theorem Turn.place (h : Turn (c + 1) i) (hi : i < 4) (hlt : c < d) (hc : c + 1 < unit 4) (hd : d < unit 4) :
    d / unit i = (c + 1) / unit i ∧ slotOf c d = .far i ((c + 1) / unit i % 64) ∨
      slotOf (c + 1) d = slotOf c d ∧ slotOf c d ≠ .far i ((c + 1) / unit i % 64) := by
  have hup : (c + 1) / unit (i + 1) = c / unit (i + 1) := h.div_eq (Nat.lt_succ_self i)
  have hself : (c + 1) / unit i = c / unit i + 1 := h.div_succ
  by_cases hblock : d / unit i = (c + 1) / unit i
  · left
    have hat : At c d i := by
      refine ⟨?_, by omega⟩
      rw [← hup]
      exact div_unit_eq (Nat.le_succ i) hblock
    refine ⟨hblock, ?_⟩
    rw [slotOf_far hat hi, hblock]
  · right
    obtain hnear | ⟨j, hj, hat⟩ := near_or_at hc hd
    · exact absurd (div_unit_eq (Nat.zero_le i) hnear) hblock
    have hij : i ≤ j := by
      by_contra hji
      exact hblock (div_unit_eq (by omega) hat.1)
    have hat' : At c d j := by
      refine ⟨hat.1.trans (h.div_eq (by omega)), ?_⟩
      rcases Nat.eq_or_lt_of_le hij with rfl | hij'
      · have hle : (c + 1) / unit i ≤ d / unit i := Nat.div_le_div_right hlt
        omega
      · rw [← h.div_eq hij']
        exact hat.2
    rw [slotOf_far hat hj, slotOf_far hat' hj]
    refine ⟨rfl, fun he => ?_⟩
    obtain ⟨rfl, hdigit⟩ := Slot.far.inj he
    have hhigh := hat.1
    rw [div_unit_succ, div_unit_succ] at hhigh
    omega

/-- In the time of one list of `near`, every place stays the same. -/
theorem slotOf_congr (h : c / unit 0 = t / unit 0) : slotOf c d = slotOf t d := by
  unfold TimingWheel.slotOf
  simp only [or_near_iff, shift_near, h]

/-- The timers that are filed anew come to another list. -/
theorem slotOf_ne_far (hc : c < unit 4) (hd : d < unit 4) (h : d / unit i = c / unit i) (k : Nat) :
    slotOf c d ≠ .far i k := by
  intro he
  obtain ⟨-, hat, -⟩ := slotOf_eq_far hc hd he
  exact hat.2 h

/-- The list of a timer in `far` is not that of the digit 0, and is emptied before the deadline. -/
theorem At.turn (h : At c d i) (hlt : c < d) :
    c < d / unit i * unit i ∧ d / unit i * unit i ≤ d ∧ Turn (d / unit i * unit i) i ∧
      d / unit i * unit i / unit i = d / unit i := by
  have hdiv : d / unit i * unit i / unit i = d / unit i := Nat.mul_div_cancel _ (unit_pos i)
  have hle : c / unit i ≤ d / unit i := Nat.div_le_div_right (Nat.le_of_lt hlt)
  have hne := h.2
  have hhigh := h.1
  rw [div_unit_succ, div_unit_succ] at hhigh
  refine ⟨?_, Nat.div_mul_le_self _ _, ⟨Nat.dvd_mul_left _ _, ?_⟩, hdiv⟩
  · exact (Nat.div_lt_iff_lt_mul (unit_pos i)).1 (by omega)
  · rw [hdiv]
    omega

end

end RoundGame.TimingWheel
