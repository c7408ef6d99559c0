import RoundGame.Lib.NestedTimers

/-!
# A queue of timers

`Queue` is a plain queue of timers in the order of their deadlines, those with the same deadline in the order in which
they were entered.

- `Account`: where each timer is. When a callback raises, those of its round that are left are lost (`Account.run`), so
  that every timer is called iff nothing is left then (`Account.served_iff_nil`).
- An update makes all its rounds iff its callbacks are calm and the clock does not come to its end
  (`rounds_done_iff`). The clock goes on by one with each round (`clocked_queue`).
- The calls of a run in time, in which no callback raises, are exactly those of the timers whose deadline has passed,
  at their deadline and in the order of the deadlines (`Account.run_timely`, `Account.law`).
-/

namespace Timers

variable {κ : Type*}

/-! ## The plain queue -/

structure Queue (κ : Type*) where
  start : Nat
  now : Nat
  queue : List (Nat × κ)

/-- A timer goes behind those with the same deadline. -/
def enqueue (a : Nat × κ) : List (Nat × κ) → List (Nat × κ)
  | [] => [a]
  | c :: l => if a.1 < c.1 then a :: c :: l else c :: enqueue a l

/-- A queue for delays of at most `maxDelay`, until the time `maxTime` from its start. -/
def Queue.store (maxDelay maxTime : Nat) (todo : Nat → Nat → Nat → Option Nat) : Store (Queue κ) κ where
  now q := q.now
  add q k t := if 0 < t ∧ t ≤ maxDelay then some { q with queue := enqueue (q.now + t, k) q.queue } else none
  todo q t := todo q.start q.now t
  shift q := if q.now < maxTime then some { q with now := q.now + 1 } else none
  detach q :=
    ((q.queue.takeWhile fun a => a.1 ≤ q.now).map Prod.snd,
      { q with queue := q.queue.dropWhile fun a => a.1 ≤ q.now })

/-- The timers with the deadline `d`. -/
def due (d : Nat) (l : List (Nat × κ)) : List (Nat × κ) := l.filter fun a => a.1 = d

def Sorted (l : List (Nat × κ)) : Prop := l.Pairwise fun a c => a.1 ≤ c.1

section

variable {a : Nat × κ} {l l' : List (Nat × κ)} {d n : Nat}

@[simp] theorem due_append : due d (l ++ l') = due d l ++ due d l' := by
  simp [due]

theorem due_cons : due d (a :: l) = due d [a] ++ due d l := due_append (l := [a])

theorem due_eq_nil (h : ∀ a ∈ l, a.1 ≠ d) : due d l = [] := by
  unfold due
  apply List.filter_eq_nil_iff.2
  intro a ha
  simpa using h a ha

theorem due_eq_nil_of_le (h : ∀ a ∈ l, a.1 ≤ n) (hd : n < d) : due d l = [] :=
  due_eq_nil fun a ha => Nat.ne_of_lt (Nat.lt_of_le_of_lt (h a ha) hd)

theorem due_due (hd : d ≠ n) : due d (due n l) = [] := by
  refine due_eq_nil fun a ha => ?_
  have hn : a.1 = n := by simpa using (List.mem_filter.1 ha).2
  omega

theorem map_due : (due d l).map (fun a => (d, a.2)) = due d l := by
  have hself : ∀ a ∈ due d l, (d, a.2) = a := by
    intro a ha
    have hd : a.1 = d := by simpa using (List.mem_filter.1 ha).2
    rw [← hd]
  rw [List.map_congr_left hself, List.map_id']

theorem mem_enqueue {c : Nat × κ} : c ∈ enqueue a l ↔ c = a ∨ c ∈ l := by
  induction l with
  | nil => simp [enqueue]
  | cons e l ih =>
    unfold enqueue
    split
    · simp
    · simp only [List.mem_cons, ih]
      tauto

/-- No deadline is before that of the head. -/
theorem Sorted.head_le {e : Nat × κ} (h : Sorted (e :: l)) : ∀ c ∈ e :: l, e.1 ≤ c.1 :=
  List.forall_mem_cons.2 ⟨Nat.le_refl _, (List.pairwise_cons.1 h).1⟩

theorem sorted_enqueue (h : Sorted l) : Sorted (enqueue a l) := by
  induction l with
  | nil => simp [enqueue, Sorted]
  | cons e l ih =>
    obtain ⟨hhead, htail⟩ := List.pairwise_cons.1 h
    unfold enqueue
    split
    · rename_i hlt
      refine List.pairwise_cons.2 ⟨?_, h⟩
      intro c hc
      have := h.head_le c hc
      omega
    · rename_i hge
      refine List.pairwise_cons.2 ⟨?_, ih htail⟩
      intro c hc
      rcases mem_enqueue.1 hc with rfl | hc
      · omega
      · exact hhead c hc

theorem due_enqueue (h : Sorted l) : due d (enqueue a l) = due d l ++ due d [a] := by
  induction l with
  | nil => rfl
  | cons e l ih =>
    have htail := (List.pairwise_cons.1 h).2
    unfold enqueue
    split
    · rename_i hlt
      by_cases hd : a.1 = d
      · have hlater : due d (e :: l) = [] := by
          apply due_eq_nil
          intro c hc
          have := h.head_le c hc
          omega
        rw [due_cons, hlater, List.append_nil, List.nil_append]
      · have hnot : due d [a] = [] := due_eq_nil (by simpa using hd)
        rw [due_cons, hnot, List.append_nil, List.nil_append]
    · rw [due_cons, ih htail, ← List.append_assoc, ← due_cons]

/-- When nothing is overdue, the timers taken out are those with this deadline. -/
theorem takeWhile_eq_due (h : Sorted l) (hlow : ∀ a ∈ l, n ≤ a.1) : l.takeWhile (fun a => a.1 ≤ n) = due n l := by
  induction l with
  | nil => rfl
  | cons e l ih =>
    have htail := (List.pairwise_cons.1 h).2
    have hrest := ih htail fun c hc => hlow c (List.mem_cons_of_mem _ hc)
    have he := hlow e List.mem_cons_self
    by_cases hn : e.1 ≤ n
    · have heq : e.1 = n := by omega
      rw [List.takeWhile_cons_of_pos (by simpa using hn), hrest]
      simp [due, heq]
    · rw [List.takeWhile_cons_of_neg (by simpa using hn)]
      symm
      apply due_eq_nil
      intro c hc
      have := h.head_le c hc
      omega

theorem mem_dropWhile (h : Sorted l) : ∀ a ∈ l.dropWhile (fun a => a.1 ≤ n), n < a.1 := by
  induction l with
  | nil => exact fun a ha => by cases ha
  | cons e l ih =>
    have htail := (List.pairwise_cons.1 h).2
    by_cases hn : e.1 ≤ n
    · rw [List.dropWhile_cons_of_pos (by simpa using hn)]
      exact ih htail
    · rw [List.dropWhile_cons_of_neg (by simpa using hn)]
      intro c hc
      have := h.head_le c hc
      omega

theorem due_dropWhile (hd : n < d) : due d (l.dropWhile fun a => a.1 ≤ n) = due d l := by
  induction l with
  | nil => rfl
  | cons e l ih =>
    by_cases hn : e.1 ≤ n
    · have hnot : due d [e] = [] := by
        apply due_eq_nil
        simp
        omega
      rw [List.dropWhile_cons_of_pos (by simpa using hn), ih, due_cons, hnot]
      rfl
    · rw [List.dropWhile_cons_of_neg (by simpa using hn)]

end

/-! ## The timers up to a deadline -/

/-- The timers with a deadline up to `n`, in the order of their deadlines. -/
def upto (n : Nat) (l : List (Nat × κ)) : List (Nat × κ) := (List.range (n + 1)).flatMap fun d => due d l

section

variable {l l' : List (Nat × κ)} {n : Nat}

theorem upto_succ (n : Nat) (l : List (Nat × κ)) : upto (n + 1) l = upto n l ++ due (n + 1) l := by
  unfold upto
  rw [List.range_succ, List.flatMap_append, List.flatMap_singleton]

theorem upto_congr (h : ∀ d ≤ n, due d l = due d l') : upto n l = upto n l' := by
  unfold upto
  apply List.flatMap_congr
  intro d hd
  have hlt := List.mem_range.1 hd
  exact h d (by omega)

theorem due_filter {d : Nat} (hd : d ≤ n) : due d (l.filter fun a => a.1 ≤ n) = due d l := by
  unfold due
  rw [List.filter_filter]
  apply List.filter_congr
  intro a _
  by_cases h : a.1 = d
  · simp [h, hd]
  · simp [h]

theorem upto_filter : upto n (l.filter fun a => a.1 ≤ n) = upto n l := upto_congr fun _ => due_filter

/-- The last deadline of a sorted list comes last. -/
theorem sorted_split (h : Sorted l) (hle : ∀ a ∈ l, a.1 ≤ n + 1) :
    l = (l.filter fun a => a.1 ≤ n) ++ due (n + 1) l := by
  induction l with
  | nil => rfl
  | cons a l ih =>
    obtain ⟨hhead, htail⟩ := List.pairwise_cons.1 h
    have hrest := ih htail fun c hc => hle c (List.mem_cons_of_mem _ hc)
    by_cases ha : a.1 ≤ n
    · have hnot : due (n + 1) [a] = [] := due_eq_nil (by simp; omega)
      rw [due_cons, hnot, List.filter_cons_of_pos (by simpa using ha), List.nil_append, List.cons_append, ← hrest]
    · have hlast : ∀ c ∈ a :: l, c.1 = n + 1 := by
        intro c hc
        have hup := hle c hc
        rcases List.mem_cons.1 hc with rfl | hc
        · omega
        · have := hhead c hc
          omega
      have hnone : (a :: l).filter (fun c => c.1 ≤ n) = [] := by
        apply List.filter_eq_nil_iff.2
        intro c hc
        have := hlast c hc
        simp
        omega
      have hall : due (n + 1) (a :: l) = a :: l := by
        apply List.filter_eq_self.2
        intro c hc
        simpa using hlast c hc
      rw [hnone, hall, List.nil_append]

theorem eq_upto (h : Sorted l) (hle : ∀ a ∈ l, a.1 ≤ n) : l = upto n l := by
  induction n generalizing l with
  | zero =>
    have hall : due 0 l = l := by
      apply List.filter_eq_self.2
      intro a ha
      simpa using hle a ha
    simpa [upto] using hall.symm
  | succ n ih =>
    have hsplit := sorted_split h hle
    have hlow := ih (h.sublist List.filter_sublist) fun a ha => of_decide_eq_true (List.mem_filter.1 ha).2
    rw [upto_succ, ← upto_filter, ← hlow]
    exact hsplit

/-- The timers up to a deadline, in another order. -/
theorem perm_upto (n : Nat) (l : List (Nat × κ)) : (l.filter fun a => a.1 ≤ n).Perm (upto n l) := by
  induction n with
  | zero =>
    have hzero : (l.filter fun a => a.1 ≤ 0) = due 0 l := by simp [due]
    rw [hzero]
    simp [upto]
  | succ n ih =>
    have hsplit := List.filter_append_perm (fun a : Nat × κ => decide (a.1 ≤ n)) (l.filter fun a => a.1 ≤ n + 1)
    have hlow : ((l.filter fun a => a.1 ≤ n + 1).filter fun a => a.1 ≤ n) = l.filter fun a => a.1 ≤ n := by
      rw [List.filter_filter]
      apply List.filter_congr
      intro a _
      grind
    have hhigh : ((l.filter fun a => a.1 ≤ n + 1).filter fun a => !decide (a.1 ≤ n)) = due (n + 1) l := by
      unfold due
      rw [List.filter_filter]
      apply List.filter_congr
      intro a _
      grind
    rw [hlow, hhigh] at hsplit
    rw [upto_succ]
    exact hsplit.symm.trans (ih.append_right _)

theorem upto_eq_self (h : ∀ a ∈ l, a.1 ≤ n) : l.Perm (upto n l) := by
  have hall : (l.filter fun a => a.1 ≤ n) = l := by
    apply List.filter_eq_self.2
    intro a ha
    simpa using h a ha
  have hperm := perm_upto n l
  rwa [hall] at hperm

end

/-! ## Where the timers are -/

/-- Every timer is in the queue, was called at its deadline, is one of `ks`, which are called next, or was lost. -/
structure Account (w : World (Queue κ) κ) (ks : List κ) (lost : List (Nat × κ)) : Prop where
  sorted : Sorted w.store.queue
  later : ∀ a ∈ w.store.queue, w.store.now < a.1
  pending : ∀ d, w.store.now < d → due d w.store.queue = due d w.added
  order : Sorted w.calls
  past : ∀ a ∈ w.calls ++ lost, a.1 ≤ w.store.now
  calls : ∀ d ≤ w.store.now,
    due d w.calls ++ due d lost ++ due d (ks.map fun k => (w.store.now, k)) = due d w.added

/-- What has happened since `w`. -/
structure Since (w w' : World (Queue κ) κ) : Prop where
  calls : w.calls <+: w'.calls
  added : ∃ entered, w'.added = w.added ++ entered ∧ ∀ a ∈ entered, w.store.now < a.1
  now : w.store.now ≤ w'.store.now
  start : w'.store.start = w.store.start

section

variable {w w₁ w₂ : World (Queue κ) κ}

theorem Since.refl (w : World (Queue κ) κ) : Since w w :=
  ⟨List.prefix_refl _, ⟨[], by simp⟩, Nat.le_refl _, rfl⟩

theorem Since.trans (h₁ : Since w w₁) (h₂ : Since w₁ w₂) : Since w w₂ := by
  obtain ⟨entered₁, hadded₁, hlater₁⟩ := h₁.added
  obtain ⟨entered₂, hadded₂, hlater₂⟩ := h₂.added
  refine ⟨h₁.calls.trans h₂.calls, ⟨entered₁ ++ entered₂, ?_, ?_⟩, Nat.le_trans h₁.now h₂.now, h₂.start.trans h₁.start⟩
  · rw [hadded₂, hadded₁, List.append_assoc]
  · intro a ha
    rcases List.mem_append.1 ha with ha | ha
    · exact hlater₁ a ha
    · exact Nat.lt_of_le_of_lt h₁.now (hlater₂ a ha)

end

section

variable {w : World (Queue κ) κ} {ks : List κ} {lost : List (Nat × κ)}

/-- Nothing has happened yet to the timers of a later deadline. -/
theorem Account.due_later (h : Account w ks lost) {d : Nat} (hd : w.store.now < d) :
    due d w.calls = [] ∧ due d lost = [] :=
  ⟨due_eq_nil_of_le (fun a ha => h.past a (List.mem_append_left _ ha)) hd,
    due_eq_nil_of_le (fun a ha => h.past a (List.mem_append_right _ ha)) hd⟩

/-- The timers that the next round takes out of the queue. -/
theorem Account.takeWhile_next (h : Account w ks lost) :
    w.store.queue.takeWhile (fun a => a.1 ≤ w.store.now + 1) = due (w.store.now + 1) w.added := by
  rw [takeWhile_eq_due h.sorted h.later]
  exact h.pending _ (Nat.lt_succ_self _)

/-- When a callback raises, the others of its round are lost. -/
theorem Account.lose (h : Account w ks lost) :
    Account w [] (lost ++ ks.map fun k => (w.store.now, k)) := by
  refine ⟨h.sorted, h.later, h.pending, h.order, ?_, ?_⟩
  · intro a ha
    rw [← List.append_assoc] at ha
    rcases List.mem_append.1 ha with ha | ha
    · exact h.past a ha
    · obtain ⟨k, -, rfl⟩ := List.mem_map.1 ha
      exact Nat.le_refl _
  · intro d hd
    rw [← h.calls d hd, due_append]
    simp [due]

end

/-- A callback that raises is the last of its round. -/
def RaisesLast (deed : Deed κ) (ks : List κ) : Prop := deed.raises = true → ks = []

/-- A callback that does not raise, and enters timers with valid delays. -/
def Calm (maxDelay : Nat) (deed : Deed κ) (_ : List κ) : Prop :=
  deed.raises = false ∧ ∀ a ∈ deed.adds, 0 < a.2 ∧ a.2 ≤ maxDelay

section

variable {maxDelay maxTime : Nat} {todo : Nat → Nat → Nat → Option Nat} {w w₁ w' : World (Queue κ) κ} {ks : List κ}
  {lost : List (Nat × κ)} {b : Behaviour κ} {x : Exit} {n : Nat}

/-! ### Entering timers -/

/-- After a timer was entered. -/
def World.entered (w : World (Queue κ) κ) (k : κ) (t : Nat) : World (Queue κ) κ :=
  { w.set { w.store with queue := enqueue (w.store.now + t, k) w.store.queue } with
    added := w.added ++ [(w.store.now + t, k)] }

theorem addTime_eq_some {k : κ} {t : Nat} :
    addTime (Queue.store maxDelay maxTime todo) w k t = some w' ↔ (0 < t ∧ t ≤ maxDelay) ∧ w.entered k t = w' := by
  unfold Timers.addTime
  by_cases ht : 0 < t ∧ t ≤ maxDelay
  · simp only [Queue.store, if_pos ht, Option.map_some, Option.some.injEq]
    exact ⟨fun h => ⟨ht, h⟩, fun h => h.2⟩
  · simp only [Queue.store, if_neg ht, Option.map_none]
    exact iff_of_false (by simp) fun h => ht h.1

theorem Account.entered (h : Account w ks lost) {t : Nat} (ht : 0 < t) (k : κ) : Account (w.entered k t) ks lost := by
  refine ⟨sorted_enqueue h.sorted, ?_, ?_, h.order, h.past, ?_⟩
  · intro a ha
    rcases mem_enqueue.1 ha with rfl | ha
    · exact Nat.lt_add_of_pos_right ht
    · exact h.later a ha
  · intro d hd
    show due d (enqueue _ w.store.queue) = due d (w.added ++ _)
    rw [due_enqueue h.sorted, due_append, h.pending d hd]
  · intro d hd
    have hd' : d ≤ w.store.now := hd
    have hnot : due d [(w.store.now + t, k)] = [] := due_eq_nil (by simp; omega)
    show _ = due d (w.added ++ _)
    rw [due_append, hnot, List.append_nil]
    exact h.calls d hd

theorem since_entered {t : Nat} (ht : 0 < t) (k : κ) : Since w (w.entered k t) := by
  refine ⟨List.prefix_refl _, ⟨[(w.store.now + t, k)], rfl, ?_⟩, Nat.le_refl _, rfl⟩
  intro a ha
  rw [List.mem_singleton.1 ha]
  exact Nat.lt_add_of_pos_right ht

theorem Account.addAll (h : Account w ks lost) {l : List (κ × Nat)}
    (hadds : addAll (Queue.store maxDelay maxTime todo) w l = some w') :
    Account w' ks lost ∧ Since w w' ∧ w'.store.now = w.store.now := by
  induction l generalizing w with
  | nil =>
    cases hadds
    exact ⟨h, Since.refl _, rfl⟩
  | cons a l ih =>
    obtain ⟨w₁, hadd, hrest⟩ := Option.bind_eq_some_iff.1 hadds
    obtain ⟨ht, rfl⟩ := addTime_eq_some.1 hadd
    obtain ⟨h', hsince, hnow⟩ := ih (h.entered ht.1 a.1) hrest
    exact ⟨h', (since_entered ht.1 a.1).trans hsince, hnow⟩

/-- Timers are entered iff their delays are valid. -/
theorem addAll_isSome (w : World (Queue κ) κ) {l : List (κ × Nat)} :
    (addAll (Queue.store maxDelay maxTime todo) w l).isSome ↔ ∀ a ∈ l, 0 < a.2 ∧ a.2 ≤ maxDelay := by
  induction l generalizing w with
  | nil => simp [Timers.addAll]
  | cons a l ih =>
    unfold Timers.addAll
    rw [List.forall_mem_cons]
    by_cases ht : 0 < a.2 ∧ a.2 ≤ maxDelay
    · have hadd : addTime (Queue.store maxDelay maxTime todo) w a.1 a.2 = some (w.entered a.1 a.2) :=
        addTime_eq_some.2 ⟨ht, rfl⟩
      rw [hadd, Option.bind_some, ih]
      simp [ht]
    · have hadd : addTime (Queue.store maxDelay maxTime todo) w a.1 a.2 = none :=
        Option.eq_none_iff_forall_ne_some.2 fun w₁ h₁ => ht (addTime_eq_some.1 h₁).1
      rw [hadd]
      simp [ht]

/-! ### Calling -/

/-- The next callback is called. -/
theorem Account.called {k : κ} (h : Account w (k :: ks) lost) (hlast : ∀ a ∈ lost, a.1 < w.store.now) :
    Account { w with calls := w.calls ++ [(w.store.now, k)] } ks lost := by
  have hle : ∀ a ∈ w.calls, a.1 ≤ w.store.now := fun a ha => h.past a (List.mem_append_left _ ha)
  refine ⟨h.sorted, h.later, h.pending, ?_, ?_, ?_⟩
  · refine List.pairwise_append.2 ⟨h.order, List.pairwise_singleton _ _, ?_⟩
    intro a ha c hc
    rw [List.mem_singleton.1 hc]
    exact hle a ha
  · intro a ha
    simp only [List.append_assoc, List.mem_append, List.mem_singleton] at ha
    rcases ha with ha | rfl | ha
    · exact hle a ha
    · exact Nat.le_refl _
    · exact Nat.le_of_lt (hlast a ha)
  · intro d hd
    have hcalls := h.calls d hd
    rw [List.map_cons, due_cons] at hcalls
    by_cases hnow : d = w.store.now
    · -- nothing of this round is lost
      have hnone : due d lost = [] := due_eq_nil fun a ha => by have := hlast a ha; omega
      rw [hnone, List.append_nil] at hcalls ⊢
      rw [due_append, List.append_assoc]
      exact hcalls
    · have hnot : due d [(w.store.now, k)] = [] := due_eq_nil (by simp; omega)
      rw [hnot, List.nil_append] at hcalls
      rw [due_append, hnot, List.append_nil]
      exact hcalls

theorem Account.callAll (h : Account w ks lost) (hlast : ∀ a ∈ lost, a.1 < w.store.now)
    (hcall : callAll (Queue.store maxDelay maxTime todo) b ks w = (x, w')) (hx : x ≠ .aborted) :
    ∃ l, Account w' [] (lost ++ l) ∧ Since w w' ∧ w'.store.now = w.store.now ∧ (x = .done → l = []) ∧
      (l = [] ↔ EachAll (Queue.store maxDelay maxTime todo) b RaisesLast ks w) := by
  induction ks generalizing w with
  | nil =>
    cases hcall
    exact ⟨[], by simpa using h, Since.refl _, rfl, fun _ => rfl, by simp [EachAll]⟩
  | cons k ks ih =>
    unfold Timers.callAll at hcall
    unfold EachAll
    simp only at hcall ⊢
    have h₁ := h.called hlast
    have hsince₁ : Since w { w with calls := w.calls ++ [(w.store.now, k)] } :=
      ⟨List.prefix_append _ _, ⟨[], by simp⟩, Nat.le_refl _, rfl⟩
    have hnow : (Queue.store maxDelay maxTime todo).now w.store = w.store.now := rfl
    rw [hnow] at hcall ⊢
    generalize w.calls ++ [(w.store.now, k)] = calls at hcall h₁ hsince₁ ⊢
    cases hadds : Timers.addAll (Queue.store maxDelay maxTime todo) { w with calls := calls } (b calls).adds with
    | none =>
      rw [hadds] at hcall
      cases hcall
      exact absurd rfl hx
    | some w₂ =>
      rw [hadds] at hcall
      simp only at hcall
      obtain ⟨h₂, hsince₂, hnow₂⟩ := h₁.addAll hadds
      have hnow₂ : w₂.store.now = w.store.now := hnow₂
      cases hraises : (b calls).raises with
      | true =>
        rw [hraises] at hcall
        cases hcall
        refine ⟨ks.map fun k => (w'.store.now, k), h₂.lose, hsince₁.trans hsince₂, hnow₂, ?_, ?_⟩
        · exact fun hdone => by cases hdone
        · simp [RaisesLast, hraises]
      | false =>
        rw [hraises] at hcall
        obtain ⟨l, h', hsince, hnow', hdone, hl⟩ := ih h₂ (by rwa [hnow₂]) hcall
        refine ⟨l, h', (hsince₁.trans hsince₂).trans hsince, hnow'.trans hnow₂, hdone, ?_⟩
        rw [hl]
        simp [RaisesLast, hraises]

/-- A round goes on to the next deadline, and takes the timers with this deadline out of the queue. -/
theorem Account.round (h : Account w [] lost) {q : Queue κ}
    (hshift : (Queue.store maxDelay maxTime todo).shift w.store = some q)
    (hw₁ : (w.set q).set ((Queue.store maxDelay maxTime todo).detach q).2 = w₁) :
    w.store.now < maxTime ∧ w₁.store.now = w.store.now + 1 ∧
      Account w₁ ((Queue.store maxDelay maxTime todo).detach q).1 lost ∧ Since w w₁ ∧
      ∀ a ∈ lost, a.1 < w₁.store.now := by
  subst hw₁
  by_cases hlt : w.store.now < maxTime
  · have hq : some { w.store with now := w.store.now + 1 } = some q := by
      rw [← hshift]
      exact (if_pos hlt).symm
    cases hq
    refine ⟨hlt, rfl, ⟨h.sorted.sublist (List.dropWhile_sublist _), mem_dropWhile h.sorted, ?_, h.order, ?_, ?_⟩,
      ⟨List.prefix_refl _, ⟨[], by simp [World.set]⟩, Nat.le_succ _, rfl⟩,
      fun a ha => Nat.lt_succ_of_le (h.past a (List.mem_append_right _ ha))⟩
    · intro d hd
      have hd' : w.store.now + 1 < d := hd
      show due d (w.store.queue.dropWhile _) = due d w.added
      rw [due_dropWhile hd']
      exact h.pending d (by omega)
    · intro a ha
      have := h.past a ha
      show a.1 ≤ w.store.now + 1
      omega
    · intro d hd
      have hd' : d ≤ w.store.now + 1 := hd
      show due d w.calls ++ due d lost ++
        due d (((w.store.queue.takeWhile fun a => a.1 ≤ w.store.now + 1).map Prod.snd).map
          fun k => (w.store.now + 1, k)) = due d w.added
      have hks : ((w.store.queue.takeWhile fun a => a.1 ≤ w.store.now + 1).map Prod.snd).map
          (fun k => (w.store.now + 1, k)) = due (w.store.now + 1) w.added := by
        rw [← map_due, ← h.takeWhile_next, List.map_map]
        rfl
      rw [hks]
      rcases Nat.lt_or_eq_of_le hd' with hlow | rfl
      · have hcalls := h.calls d (by omega)
        rw [due_due (by omega)]
        exact hcalls
      · obtain ⟨hcalls, hlost⟩ := h.due_later (Nat.lt_succ_self _)
        rw [hcalls, hlost]
        simp [due]
  · have hnone : (Queue.store maxDelay maxTime todo).shift w.store = none := if_neg hlt
    rw [hnone] at hshift
    cases hshift

/-! ### Runs -/

theorem Account.rounds (h : Account w [] lost)
    (hrounds : rounds (Queue.store maxDelay maxTime todo) b n w = (x, w')) (hx : x ≠ .aborted) :
    ∃ l, Account w' [] (lost ++ l) ∧ Since w w' ∧ (x = .done → l = [] ∧ w'.store.now = w.store.now + n) ∧
      (l = [] ↔ EachRounds (Queue.store maxDelay maxTime todo) b RaisesLast n w) := by
  induction n generalizing w lost with
  | zero =>
    cases hrounds
    exact ⟨[], by simpa using h, Since.refl _, fun _ => ⟨rfl, rfl⟩, by simp [EachRounds]⟩
  | succ n ih =>
    unfold Timers.rounds at hrounds
    unfold EachRounds
    cases hshift : (Queue.store maxDelay maxTime todo).shift w.store with
    | none =>
      rw [hshift] at hrounds
      cases hrounds
      exact absurd rfl hx
    | some q =>
      rw [hshift] at hrounds
      simp only at hrounds
      simp only [Option.mem_some_iff, forall_eq']
      generalize hw₁ : (w.set q).set ((Queue.store maxDelay maxTime todo).detach q).2 = w₁ at hrounds ⊢
      obtain ⟨-, hnow₁, h₁, hsince₁, hlast⟩ := h.round hshift hw₁
      generalize ((Queue.store maxDelay maxTime todo).detach q).1 = ks at hrounds h₁ ⊢
      cases hcall : Timers.callAll (Queue.store maxDelay maxTime todo) b ks w₁ with
      | mk y w₂ =>
        rw [hcall] at hrounds
        have hy : y ≠ .aborted := by
          rintro rfl
          cases hrounds
          exact hx rfl
        obtain ⟨l, h₂, hsince₂, hnow₂, hdone, hl⟩ := h₁.callAll hlast hcall hy
        simp only
        rw [← hl]
        cases y with
        | done =>
          cases hdone rfl
          rw [List.append_nil] at h₂
          obtain ⟨l', h', hsince, hdone', hl'⟩ := ih h₂ hrounds
          refine ⟨l', h', (hsince₁.trans hsince₂).trans hsince, ?_, ?_⟩
          · intro hxd
            obtain ⟨hnil, hnow'⟩ := hdone' hxd
            exact ⟨hnil, by omega⟩
          · simpa using hl'
        | raised =>
          cases hrounds
          exact ⟨l, h₂, hsince₁.trans hsince₂, fun hxd => (by cases hxd), by simp⟩
        | aborted => exact absurd rfl hy

theorem Account.call (h : Account w [] lost) {c : Call κ}
    (hcall : call (Queue.store maxDelay maxTime todo) b w c = (x, w')) (hx : x ≠ .aborted) :
    ∃ l, Account w' [] (lost ++ l) ∧ Since w w' ∧ (x = .done → l = []) ∧
      (l = [] ↔ EachCall (Queue.store maxDelay maxTime todo) b RaisesLast w c) := by
  cases c with
  | add k t =>
    unfold Timers.call at hcall
    simp only at hcall
    cases hadd : Timers.addTime (Queue.store maxDelay maxTime todo) w k t with
    | none =>
      rw [hadd] at hcall
      cases hcall
      exact absurd rfl hx
    | some w₁ =>
      rw [hadd] at hcall
      cases hcall
      obtain ⟨ht, rfl⟩ := addTime_eq_some.1 hadd
      exact ⟨[], by simpa using h.entered ht.1 k, since_entered ht.1 k, fun _ => rfl, by simp [EachCall]⟩
  | update t =>
    unfold Timers.call at hcall
    unfold EachCall
    simp only at hcall
    cases htodo : (Queue.store maxDelay maxTime todo).todo w.store t with
    | none =>
      rw [htodo] at hcall
      cases hcall
      exact absurd rfl hx
    | some n =>
      rw [htodo] at hcall
      obtain ⟨l, h', hsince, hdone, hl⟩ := h.rounds hcall hx
      refine ⟨l, h', hsince, fun hxd => (hdone hxd).1, ?_⟩
      rw [hl]
      simp only [htodo, Option.mem_some_iff, forall_eq']

/-- After a run, what was lost is what was left when callbacks raised. -/
theorem Account.run (h : Account w [] lost) {cs : List (Call κ)}
    (hrun : run (Queue.store maxDelay maxTime todo) b cs w = (.done, w')) :
    ∃ l, Account w' [] (lost ++ l) ∧ Since w w' ∧
      (l = [] ↔ EachRun (Queue.store maxDelay maxTime todo) b RaisesLast cs w) := by
  induction cs generalizing w lost with
  | nil =>
    cases hrun
    exact ⟨[], by simpa using h, Since.refl _, by simp [EachRun]⟩
  | cons c cs ih =>
    unfold Timers.run at hrun
    unfold EachRun
    cases hcall : Timers.call (Queue.store maxDelay maxTime todo) b w c with
    | mk x w₁ =>
      rw [hcall] at hrun
      have hx : x ≠ .aborted := by
        rintro rfl
        cases hrun
      obtain ⟨l, h₁, hsince₁, -, hl⟩ := h.call hcall hx
      have hrun' : Timers.run (Queue.store maxDelay maxTime todo) b cs w₁ = (.done, w') := by
        cases x with
        | done => exact hrun
        | raised => exact hrun
        | aborted => exact absurd rfl hx
      obtain ⟨l', h', hsince, hl'⟩ := ih h₁ hrun'
      refine ⟨l ++ l', by rwa [← List.append_assoc], hsince₁.trans hsince, ?_⟩
      rw [List.append_eq_nil_iff, hl, hl']
      simp [hx]

/-! ### Runs that are not cut short -/

/-- The callbacks of a round are all called iff all of them are calm. -/
theorem callAll_done_iff : (callAll (Queue.store maxDelay maxTime todo) b ks w).1 = .done ↔
    EachAll (Queue.store maxDelay maxTime todo) b (Calm maxDelay) ks w := by
  induction ks generalizing w with
  | nil => exact iff_of_true rfl trivial
  | cons k ks ih =>
    unfold callAll EachAll
    simp only
    generalize w.calls ++ [((Queue.store maxDelay maxTime todo).now w.store, k)] = calls
    have hcalm : Calm maxDelay (b calls) ks ↔ (b calls).raises = false ∧
        (addAll (Queue.store maxDelay maxTime todo) { w with calls := calls } (b calls).adds).isSome :=
      and_congr Iff.rfl (addAll_isSome _).symm
    rw [hcalm]
    cases hadds : addAll (Queue.store maxDelay maxTime todo) { w with calls := calls } (b calls).adds with
    | none => simp
    | some w₁ =>
      cases hraises : (b calls).raises with
      | true => simp
      | false => simpa using ih

theorem addAll_now {l : List (κ × Nat)} (hadds : addAll (Queue.store maxDelay maxTime todo) w l = some w') :
    w'.store.now = w.store.now := by
  induction l generalizing w with
  | nil =>
    cases hadds
    rfl
  | cons a l ih =>
    obtain ⟨w₁, hadd, hrest⟩ := Option.bind_eq_some_iff.1 hadds
    obtain ⟨-, rfl⟩ := addTime_eq_some.1 hadd
    have hnow := ih hrest
    exact hnow

theorem callAll_now (hcall : callAll (Queue.store maxDelay maxTime todo) b ks w = (.done, w')) :
    w'.store.now = w.store.now := by
  induction ks generalizing w with
  | nil =>
    cases hcall
    rfl
  | cons k ks ih =>
    unfold callAll at hcall
    simp only at hcall
    generalize w.calls ++ [((Queue.store maxDelay maxTime todo).now w.store, k)] = calls at hcall
    cases hadds : addAll (Queue.store maxDelay maxTime todo) { w with calls := calls } (b calls).adds with
    | none =>
      rw [hadds] at hcall
      cases hcall
    | some w₁ =>
      rw [hadds] at hcall
      cases hraises : (b calls).raises with
      | true => simp [hraises] at hcall
      | false =>
        simp only [hraises, Bool.false_eq_true, if_false] at hcall
        have hnow₁ := addAll_now hadds
        exact (ih hcall).trans hnow₁

/-- Rounds are all made iff the callbacks are calm and the clock does not come to its end. -/
theorem rounds_done_iff : (Timers.rounds (Queue.store maxDelay maxTime todo) b n w).1 = .done ↔
    EachRounds (Queue.store maxDelay maxTime todo) b (Calm maxDelay) n w ∧ (n ≠ 0 → w.store.now + n ≤ maxTime) := by
  induction n generalizing w with
  | zero => simp [Timers.rounds, EachRounds]
  | succ n ih =>
    unfold Timers.rounds EachRounds
    by_cases hlt : w.store.now < maxTime
    · have hshift : (Queue.store maxDelay maxTime todo).shift w.store = some { w.store with now := w.store.now + 1 } :=
        if_pos hlt
      simp only [hshift, Option.mem_some_iff, forall_eq']
      generalize hq : ({ w.store with now := w.store.now + 1 } : Queue κ) = q
      have hnow₁ : ((w.set q).set ((Queue.store maxDelay maxTime todo).detach q).2).store.now = w.store.now + 1 := by
        rw [← hq]
        rfl
      generalize (w.set q).set ((Queue.store maxDelay maxTime todo).detach q).2 = w₁ at hnow₁ ⊢
      rw [← callAll_done_iff]
      cases hcall : Timers.callAll (Queue.store maxDelay maxTime todo) b
          ((Queue.store maxDelay maxTime todo).detach q).1 w₁ with
      | mk y w₂ =>
        cases y with
        | done =>
          have hnow₂ := callAll_now hcall
          unfold onDone
          simp only [forall_const, true_and]
          rw [ih]
          refine and_congr Iff.rfl ?_
          omega
        | raised => simp [onDone]
        | aborted => simp [onDone]
    · have hshift : (Queue.store maxDelay maxTime todo).shift w.store = none := if_neg hlt
      simp only [hshift]
      simp
      omega

/-- The clock of a queue. -/
theorem clocked_queue (t : Nat) :
    Clocked (Queue.store (κ := κ) maxDelay maxTime todo) (todo t) fun q => q.start = t where
  add := by
    intro q q' k d hq hadd
    simp only [Queue.store] at hadd
    split at hadd
    · obtain rfl := Option.some.inj hadd
      exact ⟨hq, rfl⟩
    · cases hadd
  todo := by
    rintro q rfl d
    rfl
  round := by
    intro q q' hq hshift
    simp only [Queue.store] at hshift
    split at hshift
    · obtain rfl := Option.some.inj hshift
      exact ⟨hq, rfl⟩
    · cases hshift

/-! ## What a queue promises -/

/-- Every timer whose deadline is at most `n` was called once, at its deadline or later, and no other was called. -/
def Served (n : Nat) (added calls : List (Nat × κ)) : Prop :=
  ∃ m : List (Nat × Nat × κ), (∀ x ∈ m, x.1 ≤ x.2.1) ∧ calls.Perm (m.map Prod.snd) ∧
    (added.filter fun a => a.1 ≤ n).Perm (m.map fun x => (x.1, x.2.2))

/-- The timers whose deadline has passed are those that were called and those that were lost. -/
theorem Account.perm (h : Account w [] lost) :
    (w.calls ++ lost).Perm (w.added.filter fun a => a.1 ≤ w.store.now) := by
  have hdue : ∀ d ≤ w.store.now, due d (w.calls ++ lost) = due d w.added := by
    intro d hd
    have hcalls := h.calls d hd
    rw [List.map_nil] at hcalls
    rw [due_append, ← hcalls]
    simp [due]
  exact (upto_eq_self h.past).trans ((upto_congr hdue) ▸ (perm_upto _ _).symm)

/-- All timers were served iff none was lost. -/
theorem Account.served_iff_nil (h : Account w [] lost) : Served w.store.now w.added w.calls ↔ lost = [] := by
  have hperm := h.perm
  constructor
  · rintro ⟨m, -, hcalls, hadded⟩
    have hlength := hperm.length_eq
    rw [hadded.length_eq, List.length_append, hcalls.length_eq, List.length_map, List.length_map] at hlength
    exact List.eq_nil_of_length_eq_zero (by omega)
  · rintro rfl
    rw [List.append_nil] at hperm
    refine ⟨w.calls.map fun a => (a.1, a.1, a.2), ?_, ?_, ?_⟩
    · intro x hx
      obtain ⟨a, -, rfl⟩ := List.mem_map.1 hx
      exact Nat.le_refl _
    · simp [Function.comp_def]
    · simpa [Function.comp_def] using hperm.symm

/-- What was called meanwhile, when nothing was lost: the timers whose deadline was passed, of the queue and of those
that were entered. -/
theorem Account.called_since (h : Account w [] lost) (h' : Account w' [] lost) (hsince : Since w w') :
    ∃ new entered, w'.calls = w.calls ++ new ∧ w'.added = w.added ++ entered ∧ Sorted new ∧
      ∀ d, due d new =
        if w.store.now < d ∧ d ≤ w'.store.now then due d w.store.queue ++ due d entered else [] := by
  obtain ⟨new, hnew⟩ := hsince.calls
  obtain ⟨entered, hadded, hlater⟩ := hsince.added
  have hdue : ∀ d ≤ w'.store.now, due d w.calls ++ due d new ++ due d lost = due d w.added ++ due d entered := by
    intro d hd
    have hcalls := h'.calls d hd
    rw [← hnew, hadded, due_append, due_append] at hcalls
    simpa [due] using hcalls
  refine ⟨new, entered, hnew.symm, hadded, ?_, ?_⟩
  · have horder := h'.order
    rw [← hnew] at horder
    exact (List.pairwise_append.1 horder).2.1
  · intro d
    rcases Nat.lt_or_ge w'.store.now d with hbeyond | hd
    · rw [if_neg (by omega)]
      have hcalls := (h'.due_later hbeyond).1
      rw [← hnew, due_append] at hcalls
      exact (List.append_eq_nil_iff.1 hcalls).2
    · rcases Nat.lt_or_ge w.store.now d with hlt | hpast
      · obtain ⟨hcalls, hlost⟩ := h.due_later hlt
        have hboth := hdue d hd
        rw [hcalls, hlost, List.nil_append, List.append_nil] at hboth
        rw [if_pos ⟨hlt, hd⟩, hboth, h.pending d hlt]
      · have hboth := hdue d hd
        have hbefore := h.calls d hpast
        have hnot : due d entered = [] := due_eq_nil fun a ha => by have := hlater a ha; omega
        rw [if_neg (by omega)]
        rw [hnot, List.append_nil, ← hbefore] at hboth
        have hlength := congrArg List.length hboth
        have hzero : (due d ([] : List (Nat × κ))).length = 0 := rfl
        simp only [List.length_append, List.map_nil] at hlength
        exact List.eq_nil_of_length_eq_zero (by omega)

/-- The queue has the timers whose deadline has not passed, and the others were called but for `ks`, which are due. -/
structure Law (w : World (Queue κ) κ) (ks : List κ) : Prop where
  sorted : Sorted w.store.queue
  later : ∀ a ∈ w.store.queue, w.store.now < a.1
  pending : ∀ d, w.store.now < d → due d w.store.queue = due d w.added
  calls : w.calls ++ ks.map (fun k => (w.store.now, k)) = upto w.store.now w.added

/-- As long as nothing is lost, the timers are called in the order of their deadlines. -/
theorem Account.law (h : Account w ks []) : Law w ks := by
  have hle : ∀ a ∈ w.calls, a.1 ≤ w.store.now := fun a ha => h.past a (List.mem_append_left _ ha)
  have hks : ∀ a ∈ ks.map (fun k => (w.store.now, k)), a.1 = w.store.now := by
    intro a ha
    obtain ⟨k, -, rfl⟩ := List.mem_map.1 ha
    rfl
  have hsorted : Sorted (w.calls ++ ks.map fun k => (w.store.now, k)) := by
    refine List.pairwise_append.2 ⟨h.order, ?_, ?_⟩
    · exact List.pairwise_map.2 (List.pairwise_of_forall fun _ _ => Nat.le_refl _)
    · intro a ha c hc
      rw [hks c hc]
      exact hle a ha
  refine ⟨h.sorted, h.later, h.pending, ?_⟩
  have hall : ∀ a ∈ w.calls ++ ks.map (fun k => (w.store.now, k)), a.1 ≤ w.store.now := by
    intro a ha
    rcases List.mem_append.1 ha with ha | ha
    · exact hle a ha
    · exact Nat.le_of_eq (hks a ha)
  rw [eq_upto hsorted hall]
  refine upto_congr fun d hd => ?_
  rw [due_append, ← h.calls d hd]
  simp [due]

/-- The calls of a run are in time: valid delays, and updates that neither go back from `lo` nor beyond `hi`. -/
def Timely (maxDelay hi : Nat) : Nat → List (Call κ) → Prop
  | _, [] => True
  | lo, .add _ t :: cs => 0 < t ∧ t ≤ maxDelay ∧ Timely maxDelay hi lo cs
  | lo, .update t :: cs => lo ≤ t ∧ t ≤ hi ∧ Timely maxDelay hi t cs

/-- Callbacks that enter valid timers and do not raise. -/
def Behaviour.Valid (maxDelay : Nat) (b : Behaviour κ) : Prop :=
  ∀ calls, (b calls).raises = false ∧ ∀ a ∈ (b calls).adds, 0 < a.2 ∧ a.2 ≤ maxDelay

/-- The time of the last update, `lo` before the first. -/
def lastUpdate : Nat → List (Call κ) → Nat
  | lo, [] => lo
  | lo, .add _ _ :: cs => lastUpdate lo cs
  | _, .update t :: cs => lastUpdate t cs

/-- The timers of a queue in which nothing is overdue, as timers that were entered before. -/
theorem account_before {q : Queue κ} (hsorted : Sorted q.queue) (hlater : ∀ a ∈ q.queue, q.now < a.1) :
    Account ((start q).before q.queue) [] [] := by
  have hadded : ((start q).before q.queue).added = q.queue := List.append_nil _
  refine ⟨hsorted, hlater, fun d _ => by rw [hadded]; rfl, .nil, fun a ha => (by cases ha), fun d hd => ?_⟩
  have hd' : d ≤ q.now := hd
  have hnone : due d q.queue = [] := due_eq_nil fun a ha => by have := hlater a ha; omega
  rw [hadded, hnone]
  rfl

theorem account_start (t : Nat) : Account (start (⟨t, 0, []⟩ : Queue κ)) [] [] :=
  account_before (q := ⟨t, 0, []⟩) .nil fun a ha => by cases ha

/-- A run in time is not cut short, and loses nothing. -/
theorem Account.run_timely (hb : b.Valid maxDelay)
    (htodo : ∀ start now t, start + now ≤ t → t ≤ start + maxTime → todo start now t = some (t - (start + now)))
    {cs : List (Call κ)} (h : Account w [] [])
    (hcs : Timely maxDelay (w.store.start + maxTime) (w.store.start + w.store.now) cs) :
    ∃ w', Timers.run (Queue.store maxDelay maxTime todo) b cs w = (.done, w') ∧ Account w' [] [] ∧
      w'.store.start = w.store.start ∧
      w'.store.start + w'.store.now = lastUpdate (w.store.start + w.store.now) cs := by
  induction cs generalizing w with
  | nil => exact ⟨w, rfl, h, rfl, rfl⟩
  | cons c cs ih =>
    cases c with
    | add k t =>
      obtain ⟨hpos, hle, hcs⟩ := hcs
      have hadd : addTime (Queue.store maxDelay maxTime todo) w k t = some (w.entered k t) :=
        addTime_eq_some.2 ⟨⟨hpos, hle⟩, rfl⟩
      obtain ⟨w', hrun, h', hstart, hlast⟩ := ih (h.entered hpos k) hcs
      refine ⟨w', ?_, h', hstart, hlast⟩
      rw [run_cons (call_add hadd)]
      exact hrun
    | update t =>
      obtain ⟨hlo, hhi, hcs⟩ := hcs
      have hn : (Queue.store maxDelay maxTime todo).todo w.store t = some (t - (w.store.start + w.store.now)) :=
        htodo _ _ _ hlo hhi
      have hdone : (Timers.rounds (Queue.store maxDelay maxTime todo) b (t - (w.store.start + w.store.now)) w).1 =
          .done := rounds_done_iff.2 ⟨eachRounds_of (fun calls _ => hb calls) _ _, fun _ => by omega⟩
      obtain ⟨w₁, hrounds⟩ : ∃ w₁, Timers.rounds (Queue.store maxDelay maxTime todo) b
          (t - (w.store.start + w.store.now)) w = (.done, w₁) := ⟨_, Prod.ext hdone rfl⟩
      obtain ⟨l, h₁, hsince, hnil, -⟩ := h.rounds hrounds (by simp)
      obtain ⟨rfl, hnow⟩ := hnil rfl
      have hstart₁ := hsince.start
      have htime : w₁.store.start + w₁.store.now = t := by omega
      have hcs₁ : Timely maxDelay (w₁.store.start + maxTime) (w₁.store.start + w₁.store.now) cs := by
        rw [htime, hstart₁]
        exact hcs
      obtain ⟨w', hrun, h', hstart, hlast⟩ := ih h₁ hcs₁
      refine ⟨w', ?_, h', hstart.trans hstart₁, ?_⟩
      · rw [run_cons (call_update hn hrounds)]
        exact hrun
      · rw [hlast, htime]
        rfl

end

end Timers
