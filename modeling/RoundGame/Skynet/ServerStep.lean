import RoundGame.Skynet.ServerInv

/-!
# Every step of a thread keeps the invariant

One lemma for each kind of frame, and one for each call. What a frame has in its hands or a reference to is there, so
that no check fails.
-/

namespace RoundGame.Skynet

open Function Threads

variable {δ : Type}

namespace Server

variable {s s' : Server δ} {l l' : List Nat} {t c d q i n : Nat} {f : Frame δ} {st fs : List (Frame δ)}
  {msg : Message δ} {w : Int}

/-! ## Rules for the steps -/

theorem check_of {b : Bool} (hb : b = true) : s.check b = s := by
  subst hb
  rw [check, Bool.not_true, Bool.or_false]

theorem Inv.account (h : Inv s l) (hst : s.thread[t]? = some (f :: st)) (hc : c < s.count) :
    ∃ P R D, Account (s.service c) (l.count c + f.holds c + P) (f.refs c + R) (f.deletes c + D) (s.Registered c) := by
  have hmem := List.mem_of_getElem? hst
  have hP := le_tally (w := Frame.holds c) hmem List.mem_cons_self
  have hR := le_tally (w := Frame.refs c) hmem List.mem_cons_self
  have hD := le_tally (w := Frame.deletes c) hmem List.mem_cons_self
  refine ⟨tally (Frame.holds c) s.thread - f.holds c, tally (Frame.refs c) s.thread - f.refs c,
    tally (Frame.deletes c) s.thread - f.deletes c, ?_⟩
  rw [Nat.add_assoc, Nat.add_sub_cancel' hP, Nat.add_sub_cancel' hR, Nat.add_sub_cancel' hD]
  exact h.accounts c hc

theorem Inv.frameOk (h : Inv s l) (hst : s.thread[t]? = some (f :: st)) : s.FrameOk f :=
  h.frames _ (List.mem_of_getElem? hst) f List.mem_cons_self

theorem oneService_global (h : Inv s l) (g : GlobalQueue) (d : Nat) : OneService s { s with global := g } d :=
  ⟨rfl, rfl, h.crash, fun _ _ => rfl, rfl, id, id, Or.inl⟩

/-- A step that changes no service. -/
theorem Inv.move (h : Inv s l) (hst : s.thread[t]? = some (f :: st)) {g : GlobalQueue} (hreps : g.Reps l')
    (hlisted : ∀ c ∈ l', c ∈ l ∨ c < s.count ∧ s.Ready c) (hframes : ∀ g ∈ fs, s.FrameOk g)
    (hcounts : ∀ c, l'.count c + total (Frame.holds c) fs = l.count c + f.holds c ∧
      total (Frame.refs c) fs = f.refs c ∧ total (Frame.deletes c) fs = f.deletes c) :
    Inv { s with global := g, thread := s.thread.set t (fs ++ st) } l' := by
  refine h.next hst (oneService_global h g 0) hreps hlisted hframes
    (fun c _ => hcounts c) ?_
  intro P R D hacc
  obtain ⟨h1, h2, h3⟩ := hcounts 0
  rw [h1, h2, h3]
  exact hacc

/-- A step that changes only the frames. -/
theorem Inv.reframe (h : Inv s l) (hst : s.thread[t]? = some (f :: st)) (hframes : ∀ g ∈ fs, s.FrameOk g)
    (hcounts : ∀ c, total (Frame.holds c) fs = f.holds c ∧ total (Frame.refs c) fs = f.refs c ∧
      total (Frame.deletes c) fs = f.deletes c) : Inv { s with thread := s.thread.set t (fs ++ st) } l := by
  refine h.move (g := s.global) hst h.reps (fun c hc => Or.inl hc) hframes fun c => ?_
  obtain ⟨h1, h2, h3⟩ := hcounts c
  exact ⟨by rw [h1], h2, h3⟩

theorem oneService_set (h : Inv s l) {v : Service δ} (hhandle : v.ctx.handle = (s.service d).ctx.handle)
    (hinit : (s.service d).ctx.init = true → v.ctx.init = true)
    (hrelease : (s.service d).queue.release = true → v.queue.release = true)
    (hawake : v.queue.in_global = false →
      (s.service d).queue.in_global = false ∨ (s.setService d v).Ready d) :
    OneService s (s.setService d v) d := by
  have hself : (s.setService d v).service d = v := by simp only [setService, update_self]
  refine ⟨rfl, rfl, h.crash, fun c hc => update_of_ne hc _ _, ?_, ?_, ?_, ?_⟩
  · rw [hself]
    exact hhandle
  · rw [hself]
    exact hinit
  · rw [hself]
    exact hrelease
  · rw [hself]
    exact hawake

@[simp] theorem setService_self (sv : Service δ) : (s.setService d sv).service d = sv := by
  simp only [setService, update_self]

@[simp] theorem setService_global (sv : Service δ) : (s.setService d sv).global = s.global := rfl

@[simp] theorem setService_count (sv : Service δ) : (s.setService d sv).count = s.count := rfl

theorem globalPush_eq (hreps : s.global.Reps l) (hq : q ∉ l) :
    ∃ g, s.globalPush q = { s with global := g } ∧ g.Reps (l ++ [q]) := by
  obtain ⟨g, hg, hreps'⟩ := GlobalQueue.push_reps hreps hq
  exact ⟨g, by rw [globalPush, hg], hreps'⟩

/-- A queue that is in somebody's hands is not in the global queue. -/
theorem Inv.not_listed (h : Inv s l) (hst : s.thread[t]? = some (f :: st)) (hc : c < s.count) (hf : 0 < f.holds c) :
    c ∉ l := by
  obtain ⟨P, R, D, hacc⟩ := h.account hst hc
  have hle := hacc.places_le_one
  exact fun hmem => by
    have hpos := List.count_pos_iff.2 hmem
    omega

/-- How the global queue changes: queues are pushed behind the others, and the first one may be taken. -/
def Served (taken : Bool) (l l' : List Nat) : Prop := ∃ r, l' = (if taken then l.tail else l) ++ r

theorem Served.refl : Served false l l := ⟨[], (List.append_nil l).symm⟩

theorem Served.push : Served false l (l ++ [q]) := ⟨[q], rfl⟩

theorem Served.take {a : Nat} : Served true (a :: l) l := ⟨[], (List.append_nil l).symm⟩

theorem Served.empty : Served true [] [] := ⟨[], rfl⟩

/-- The invariant after a step of the thread `t` with the result `r`, and what the step does to the global queue. -/
def Leads (s : Server δ) (l : List Nat) (t : Nat) (st : List (Frame δ)) (taken : Bool) (r : List (Frame δ) × Server δ) :
    Prop := ∃ l', Served taken l l' ∧ Inv { r.2 with thread := s.thread.set t (r.1 ++ st) } l'

/-! ## The frames of a worker -/

theorem inv_top_none (h : Inv s l) (hst : s.thread[t]? = some (.top none :: st)) :
    Leads s l t st true (s.go w (.top none)) := by
  rw [go]
  cases l with
  | nil =>
    have hpop := GlobalQueue.pop_nil h.reps
    simp only [globalPop, hpop]
    exact ⟨[], .empty, h.reframe hst (by simp [FrameOk, Frame.Below, Relies])
      (by simp [Frame.holds, Frame.refs, Frame.deletes])⟩
  | cons a l =>
    obtain ⟨g, hg, hreps⟩ := GlobalQueue.pop_cons h.reps
    simp only [globalPop, hg]
    obtain ⟨hlt, hready⟩ := h.listed a List.mem_cons_self
    refine ⟨l, .take, h.move hst hreps (fun c hc => Or.inl (List.mem_cons_of_mem a hc)) ?_ ?_⟩
    · intro f hf
      rw [List.mem_singleton.1 hf]
      exact ⟨hlt, hready⟩
    · intro c
      rw [List.count_cons]
      simp only [Frame.holds, Frame.refs, Frame.deletes, total_cons, total_nil, beq_iff_eq]
      exact ⟨by omega, trivial, trivial⟩

theorem inv_top_some (h : Inv s l) (hst : s.thread[t]? = some (.top (some q) :: st)) :
    Leads s l t st false (s.go w (.top (some q))) := by
  obtain ⟨hq, hready⟩ := h.frameOk hst
  obtain ⟨P, R, D, hacc⟩ := h.account hst hq
  have hheld : 0 < l.count q + Frame.holds q (.top (some q) : Frame δ) + P := by
    simp only [Frame.holds, if_true]
    omega
  have hfreed := (hacc.queue_of_places hheld).1
  rw [go]
  simp only [check_of (s := s) (b := !(s.service q).freed) (by rw [hfreed]; rfl), grab, hacc.handle]
  cases hg : s.handles.grab (s.service q).ctx.handle with
  | none =>
    refine ⟨l, .refl, h.reframe hst ?_ ?_⟩
    · intro f hf
      rcases List.mem_pair.1 hf with rfl | rfl
      · refine ⟨hq, fun hreg => ?_⟩
        rw [Registered, hg] at hreg
        cases hreg
      · exact ⟨trivial, trivial⟩
    · intro c
      simp [Frame.holds, Frame.refs, Frame.deletes]
  | some c =>
    obtain ⟨hc, hh⟩ := h.registered _ c hg
    obtain rfl : c = q := h.distinct c hc q hq hh
    have hreg : s.Registered c := hg
    have halive := (hacc.alive_of_reg hreg).1
    simp only [grabContext, check_of (s := s) (b := !(s.service c).ctx.freed) (by rw [halive]; rfl), setContext]
    refine ⟨l, .refl, h.next hst (oneService_set h rfl id id Or.inl) h.reps (fun c hc => Or.inl hc) ?_ ?_ ?_⟩
    · intro f hf
      rw [List.mem_singleton.1 hf]
      refine ⟨⟨hq, hq⟩, rfl, ?_⟩
      rw [setService_self]
      exact hready hreg
    · intro d hd
      simp [Frame.holds, Frame.refs, Frame.deletes, hd.symm]
    · intro P R D hacc
      have hgrab := hacc.grab hreg
      rw [setService_self]
      simp only [Frame.holds, Frame.refs, Frame.deletes, total_cons, total_nil, if_true] at hgrab ⊢
      exact hgrab.cast (by omega) (by omega) (by omega)

theorem below_dispatchLoop (hq : q < n) (hc : c < n) (i m : Nat) : (dispatchLoop q c i m : Frame δ).Below n := by
  rw [dispatchLoop]
  split <;> exact ⟨hq, hc⟩

theorem frameOk_dispatchLoop (hc : c < s.count) (hinit : (s.service c).ctx.init = true) (i m : Nat) :
    s.FrameOk (dispatchLoop c c i m) := by
  refine ⟨below_dispatchLoop hc hc i m, ?_⟩
  rw [dispatchLoop]
  split <;> exact ⟨rfl, hinit⟩

@[simp] theorem weights_dispatchLoop (d i m : Nat) :
    (dispatchLoop q c i m : Frame δ).holds d = (if q = d then 1 else 0) ∧
      (dispatchLoop q c i m : Frame δ).refs d = (if c = d then 1 else 0) ∧
      (dispatchLoop q c i m : Frame δ).deletes d = 0 := by
  rw [dispatchLoop]
  split <;> exact ⟨rfl, rfl, rfl⟩

theorem inv_pop (h : Inv s l) (hst : s.thread[t]? = some (.pop q c i n :: st)) :
    Leads s l t st false (s.go w (.pop q c i n)) := by
  obtain ⟨⟨hq, _⟩, rfl, hinit⟩ := h.frameOk hst
  obtain ⟨P, R, D, hacc⟩ := h.account hst hq
  have hrefs : 0 < Frame.refs q (.pop q q i n : Frame δ) + R := by
    simp only [Frame.refs, if_true]
    omega
  have hfreed := (hacc.alive_of_refs hrefs).2.1
  have hrelease := (Account.pop_fields (s.service q).queue).1
  rw [go]
  simp only [check_of (s := s) (b := !(s.service q).freed) (by rw [hfreed]; rfl)]
  split
  · rename_i queue hpop
    obtain ⟨hnone, rfl⟩ : (s.service q).queue.pop.1 = none ∧ (s.service q).queue.pop.2 = queue := by
      rw [hpop]
      exact ⟨rfl, rfl⟩
    have hready : (s.setService q { s.service q with queue := (s.service q).queue.pop.2 }).Ready q := fun _ => by
      rw [setService_self]
      exact hinit
    refine ⟨l, .refl, h.next hst (oneService_set h rfl id (fun hr => hrelease.trans hr) fun _ => Or.inr hready) h.reps
      (fun c hc => Or.inl hc) ?_ ?_ ?_⟩
    · intro f hf
      rcases List.mem_pair.1 hf with rfl | rfl
      · exact ⟨hq, trivial⟩
      · exact ⟨trivial, trivial⟩
    · intro d hd
      simp [Frame.holds, Frame.refs, Frame.deletes, hd.symm]
    · intro P R D hacc
      simp only [Frame.holds, Frame.refs, Frame.deletes, if_true] at hacc
      have hgive := hacc.giveUp (by omega) (by omega) hnone
      rw [setService_self]
      simp only [Frame.holds, Frame.refs, Frame.deletes, total_cons, total_nil, if_true]
      exact hgive.cast (by omega) (by omega) (by omega)
  · rename_i m queue hpop
    obtain ⟨hsome, rfl⟩ : (s.service q).queue.pop.1 = some m ∧ (s.service q).queue.pop.2 = queue := by
      rw [hpop]
      exact ⟨rfl, rfl⟩
    have hone := oneService_set (d := q) h (v := { s.service q with
      queue := (s.service q).queue.pop.2
      taken := (s.service q).taken ++ [m] }) rfl id (fun hr => hrelease.trans hr) fun hidle =>
      Or.inl ((hacc.pop_some_iff hsome).2.symm.trans hidle)
    refine ⟨l, .refl, h.next hst hone h.reps (fun c hc => Or.inl hc) ?_ ?_ ?_⟩
    · intro f hf
      have hok : ∀ {g : Frame δ}, g.Below s.count →
          (∀ s' : Server δ, s'.Relies g = (q = q ∧ (s'.service q).ctx.init = true)) →
          (s.setService q { s.service q with
            queue := (s.service q).queue.pop.2
            taken := (s.service q).taken ++ [m] }).FrameOk g := by
        intro g hb hr
        refine ⟨hb, ?_⟩
        rw [hr, setService_self]
        exact ⟨rfl, hinit⟩
      split at hf
      · rw [List.mem_singleton.1 hf]
        exact hok ⟨hq, hq⟩ fun _ => rfl
      · rw [List.mem_singleton.1 hf]
        exact hok ⟨hq, hq⟩ fun _ => rfl
    · intro d hd
      split <;> simp [Frame.holds, Frame.refs, Frame.deletes, hd.symm]
    · intro P R D hacc
      simp only [Frame.holds, Frame.refs, Frame.deletes, if_true] at hacc
      have htake := hacc.take (by omega) hsome
      rw [setService_self]
      split <;>
      · simp only [Frame.holds, Frame.refs, Frame.deletes, total_cons, total_nil, if_true]
        exact htake.cast (by omega) (by omega) (by omega)

theorem inv_length (h : Inv s l) (hst : s.thread[t]? = some (.length q c msg :: st)) :
    Leads s l t st false (s.go w (.length q c msg)) := by
  obtain ⟨hbelow, hrel⟩ := h.frameOk hst
  obtain ⟨P, R, D, hacc⟩ := h.account hst hbelow.1
  have hheld : 0 < l.count q + Frame.holds q (.length q c msg : Frame δ) + P := by
    simp only [Frame.holds, if_true]
    omega
  have hfreed := (hacc.queue_of_places hheld).1
  rw [go, check_of (by rw [hfreed]; rfl)]
  refine ⟨l, .refl, h.reframe hst ?_ ?_⟩
  · intro f hf
    rw [List.mem_singleton.1 hf]
    exact ⟨hbelow, hrel⟩
  · intro d
    simp [Frame.holds, Frame.refs, Frame.deletes]

theorem inv_trigger (h : Inv s l) (hst : s.thread[t]? = some (.trigger q c i n msg :: st)) :
    Leads s l t st false (s.go w (.trigger q c i n msg)) := by
  obtain ⟨⟨hq, _⟩, rfl, hinit⟩ := h.frameOk hst
  obtain ⟨P, R, D, hacc⟩ := h.account hst hq
  have hrefs : 0 < Frame.refs q (.trigger q q i n msg : Frame δ) + R := by
    simp only [Frame.refs, if_true]
    omega
  obtain ⟨halive, hfreed, _⟩ := hacc.alive_of_refs hrefs
  have hone := oneService_set (d := q) h (v := { s.service q with
    queue := (s.service q).queue.takeOverload.2 }) rfl id id Or.inl
  rw [go]
  simp only [check_of (s := s) (b := !(s.service q).freed) (by rw [hfreed]; rfl), setService_self]
  -- whether there is a callback or not, the thread keeps the queue and its reference
  suffices hframe : ∀ {g : Frame δ}, (∀ d, g.holds d = (if q = d then 1 else 0) ∧ g.refs d = (if q = d then 1 else 0) ∧
      g.deletes d = 0) → (s.setService q { s.service q with
        queue := (s.service q).queue.takeOverload.2 }).FrameOk g →
      Inv { s.setService q { s.service q with
        queue := (s.service q).queue.takeOverload.2 } with thread := s.thread.set t ([g] ++ st) } l by
    split
    · rw [check_of (by rw [halive, hinit]; rfl)]
      refine ⟨l, .refl, hframe (fun d => ⟨rfl, rfl, rfl⟩) ⟨⟨hq, hq⟩, rfl, ?_⟩⟩
      rw [setService_self]
      exact hinit
    · rw [check_of (by rw [halive]; rfl)]
      refine ⟨l, .refl, hframe (fun d => weights_dispatchLoop d _ _)
        (frameOk_dispatchLoop (s := s.setService q _) hq ?_ _ _)⟩
      rw [setService_self]
      exact hinit
  intro g hg hok
  refine h.next hst hone h.reps (fun c hc => Or.inl hc) ?_ ?_ ?_
  · intro f hf
    rw [List.mem_singleton.1 hf]
    exact hok
  · intro d hd
    obtain ⟨h1, h2, h3⟩ := hg d
    simp only [total_cons, total_nil, h1, h2, h3]
    simp [Frame.holds, Frame.refs, Frame.deletes, hd.symm]
  · intro P R D hacc
    obtain ⟨h1, h2, h3⟩ := hg q
    rw [setService_self]
    simp only [total_cons, total_nil, h1, h2, h3]
    simp only [Frame.holds, Frame.refs, Frame.deletes] at hacc
    exact hacc.report.cast (by omega) (by omega) (by omega)

theorem inv_callback (h : Inv s l) (hst : s.thread[t]? = some (.callback q c i n msg :: st)) :
    Leads s l t st false (s.go w (.callback q c i n msg)) := by
  obtain ⟨⟨_, hc⟩, rfl, hinit⟩ := h.frameOk hst
  rw [go]
  refine ⟨l, .refl, h.reframe hst ?_ ?_⟩
  · intro f hf
    rw [List.mem_singleton.1 hf]
    exact frameOk_dispatchLoop hc hinit _ _
  · intro d
    simp only [total_cons, total_nil, weights_dispatchLoop]
    exact ⟨rfl, rfl, rfl⟩

theorem inv_swap (h : Inv s l) (hst : s.thread[t]? = some (.swap q c :: st)) :
    Leads s l t st true (s.go w (.swap q c)) := by
  obtain ⟨⟨hq, _⟩, rfl, hinit⟩ := h.frameOk hst
  rw [go, check_of (by simp)]
  cases l with
  | nil =>
    have hpop := GlobalQueue.pop_nil h.reps
    simp only [globalPop, hpop]
    refine ⟨[], .empty, h.reframe hst ?_ ?_⟩
    · intro f hf
      rcases List.mem_pair.1 hf with rfl | rfl
      · exact ⟨hq, trivial⟩
      · exact ⟨hq, fun _ => hinit⟩
    · intro d
      simp [Frame.holds, Frame.refs, Frame.deletes]
  | cons a l =>
    obtain ⟨g, hg, hreps⟩ := GlobalQueue.pop_cons h.reps
    obtain ⟨hlt, hready⟩ := h.listed a List.mem_cons_self
    simp only [globalPop, hg]
    refine ⟨l, .take, h.move hst hreps (fun c hc => Or.inl (List.mem_cons_of_mem a hc)) ?_ ?_⟩
    · intro f hf
      rw [List.mem_singleton.1 hf]
      exact ⟨⟨hq, hq, hlt⟩, ⟨rfl, hinit⟩, hready⟩
    · intro d
      rw [List.count_cons]
      simp only [Frame.holds, Frame.refs, Frame.deletes, total_cons, total_nil, beq_iff_eq]
      exact ⟨by omega, rfl, trivial⟩

/-- A queue that a thread lets go of is pushed to the global queue. -/
theorem count_concat (l : List Nat) (q d : Nat) : (l ++ [q]).count d = l.count d + if q = d then 1 else 0 := by
  rw [List.count_append, List.count_singleton]
  simp only [beq_iff_eq]

theorem inv_pushBack {nq : Nat} (h : Inv s l) (hst : s.thread[t]? = some (.pushBack q c nq :: st)) :
    Leads s l t st false (s.go w (.pushBack q c nq)) := by
  obtain ⟨⟨hq, _, hnq⟩, ⟨rfl, hinit⟩, hready⟩ := h.frameOk hst
  obtain ⟨P, R, D, hacc⟩ := h.account hst hq
  have hpos : 0 < (Frame.pushBack q q nq : Frame δ).holds q := by
    simp only [Frame.holds, if_true]
    omega
  have hfreed := (hacc.queue_of_places (by omega)).1
  obtain ⟨g, hg, hreps⟩ := globalPush_eq h.reps (h.not_listed hst hq hpos)
  rw [go, check_of (by rw [hfreed]; rfl), hg]
  refine ⟨l ++ [q], .push, h.move hst hreps ?_ ?_ ?_⟩
  · intro c hc
    rcases List.mem_append.1 hc with hc | hc
    · exact Or.inl hc
    · rw [List.mem_singleton.1 hc]
      exact Or.inr ⟨hq, fun _ => hinit⟩
  · intro f hf
    rcases List.mem_pair.1 hf with rfl | rfl
    · exact ⟨hq, trivial⟩
    · exact ⟨hnq, hready⟩
  · intro d
    rw [count_concat]
    simp only [Frame.holds, Frame.refs, Frame.deletes, total_cons, total_nil]
    exact ⟨by omega, by omega, trivial⟩

/-! ## References -/

/-- A reference that is given back: the counter is not 0 before. -/
theorem decrement_eq {P R D : Nat} {reg : Prop} (hacc : Account (s.service c) P R D reg) (hR : 0 < R) :
    s.decrement c = (decide ((s.service c).ctx.ref - 1 = 0),
      s.setService c { s.service c with ctx := { (s.service c).ctx with ref := (s.service c).ctx.ref - 1 } }) := by
  obtain ⟨halive, _, href⟩ := hacc.alive_of_refs hR
  have hcheck : (!(s.service c).ctx.freed && decide ((s.service c).ctx.ref ≠ 0)) = true := by
    rw [halive, Bool.not_false, Bool.true_and, decide_eq_true_eq]
    omega
  simp only [decrement, check_of hcheck, setContext]

/-- What a frame that gives back a reference to `c` leaves: whoever gives back the last one goes on to delete the
context. -/
theorem inv_decrement (h : Inv s l) (hst : s.thread[t]? = some (f :: st)) (hf : f.refs c = 1)
    (hframes : ∀ g ∈ fs, (s.setService c { s.service c with
      ctx := { (s.service c).ctx with ref := (s.service c).ctx.ref - 1 } }).FrameOk g)
    (hothers : ∀ d, d ≠ c → total (Frame.holds d) fs = f.holds d ∧ total (Frame.refs d) fs = f.refs d ∧
      total (Frame.deletes d) fs = f.deletes d)
    (hself : total (Frame.holds c) fs = f.holds c ∧ total (Frame.refs c) fs = 0 ∧
      total (Frame.deletes c) fs = f.deletes c + if (s.service c).ctx.ref - 1 = 0 then 1 else 0) :
    Inv { s.setService c { s.service c with
      ctx := { (s.service c).ctx with ref := (s.service c).ctx.ref - 1 } } with
      thread := s.thread.set t (fs ++ st) } l := by
  refine h.next hst (oneService_set h rfl id id Or.inl) h.reps (fun c hc => Or.inl hc) hframes ?_ ?_
  · intro d hd
    obtain ⟨h1, h2, h3⟩ := hothers d hd
    exact ⟨by rw [h1], h2, h3⟩
  · intro P R D hacc
    obtain ⟨h1, h2, h3⟩ := hself
    rw [hf] at hacc
    have hdec := hacc.decrement (by omega)
    rw [setService_self]
    refine hdec.cast (by rw [h1]) (by omega) ?_
    rw [h3]
    split <;> omega

theorem inv_release (h : Inv s l) (hst : s.thread[t]? = some (.release c :: st)) :
    Leads s l t st false (s.go w (.release c)) := by
  obtain ⟨hc, _⟩ := h.frameOk hst
  obtain ⟨P, R, D, hacc⟩ := h.account hst hc
  simp only [Frame.refs, if_true] at hacc
  rw [go, decrement_eq hacc (by omega)]
  dsimp only
  refine ⟨l, .refl, inv_decrement h hst (if_pos rfl) ?_ ?_ ?_⟩
  · intro f hf
    rw [releaseFrames] at hf
    split at hf
    · rw [List.mem_singleton.1 hf]
      exact ⟨hc, trivial⟩
    · cases hf
  · intro d hd
    rw [releaseFrames]
    split <;> simp [Frame.holds, Frame.refs, Frame.deletes, hd.symm]
  · rw [releaseFrames]
    split <;> simp_all [Frame.holds, Frame.refs, Frame.deletes]

/-- A step that changes the service `c`, and pushes its queue to the global queue when `b` is set. -/
theorem Inv.pushIf (h : Inv s l) (hst : s.thread[t]? = some (f :: st)) {sv : Service δ} {b : Bool}
    (hone : OneService s (s.setService c sv) c)
    (hpush : b = true → c ∉ l ∧ c < s.count ∧ (s.setService c sv).Ready c)
    (hframes : ∀ g ∈ fs, (s.setService c sv).FrameOk g)
    (hcounts : ∀ d, d ≠ c → total (Frame.holds d) fs = f.holds d ∧ total (Frame.refs d) fs = f.refs d ∧
      total (Frame.deletes d) fs = f.deletes d)
    (hacc : ∀ P R D,
      Account (s.service c) (l.count c + f.holds c + P) (f.refs c + R) (f.deletes c + D) (s.Registered c) →
      Account sv ((if b then l.count c + 1 else l.count c) + total (Frame.holds c) fs + P)
        (total (Frame.refs c) fs + R) (total (Frame.deletes c) fs + D) (s.Registered c)) :
    Leads s l t st false (fs, if b then (s.setService c sv).globalPush c else s.setService c sv) := by
  cases b with
  | false =>
    simp only [Bool.false_eq_true, if_false] at hacc ⊢
    refine ⟨l, .refl, h.next hst hone h.reps (fun c hc => Or.inl hc) hframes ?_ ?_⟩
    · intro d hd
      obtain ⟨h1, h2, h3⟩ := hcounts d hd
      exact ⟨by rw [h1], h2, h3⟩
    · rw [setService_self]
      exact hacc
  | true =>
    obtain ⟨hnot, hc, hready⟩ := hpush rfl
    obtain ⟨g, hg, hreps⟩ := globalPush_eq (s := s.setService c sv) h.reps hnot
    rw [if_pos rfl, hg]
    have hone' : OneService s { s.setService c sv with global := g } c :=
      ⟨hone.handles, hone.count, hone.crash, hone.others, hone.handle, hone.init, hone.release, hone.awake⟩
    refine ⟨l ++ [c], .push, h.next hst hone' hreps ?_ hframes ?_ ?_⟩
    · intro d hd
      rcases List.mem_append.1 hd with hd | hd
      · exact Or.inl hd
      · rw [List.mem_singleton.1 hd]
        exact Or.inr ⟨hc, hready⟩
    · intro d hd
      obtain ⟨h1, h2, h3⟩ := hcounts d hd
      rw [count_concat, if_neg hd.symm]
      exact ⟨by rw [h1]; rfl, h2, h3⟩
    · intro P R D hold
      have hself : ({ s.setService c sv with global := g } : Server δ).service c = sv := setService_self sv
      rw [hself, count_concat, if_pos rfl]
      exact hacc P R D hold

/-- A queue that does not say that it is somewhere is nowhere. -/
theorem not_listed_of_account {P R D : Nat} {reg : Prop} (hacc : Account (s.service c) (l.count c + P) R D reg)
    (halive : (s.service c).ctx.freed = false) (hb : (!(s.service c).queue.in_global) = true) : c ∉ l := by
  intro hmem
  have hpos := List.count_pos_iff.2 hmem
  have honce := hacc.listed_once halive
  rw [if_pos hb] at honce
  omega

theorem inv_delete (h : Inv s l) (hst : s.thread[t]? = some (.delete c :: st)) :
    Leads s l t st false (s.go w (.delete c)) := by
  obtain ⟨hc, _⟩ := h.frameOk hst
  obtain ⟨P, R, D, hacc⟩ := h.account hst hc
  have hpos : 0 < Frame.deletes c (.delete c : Frame δ) + D := by
    simp only [Frame.deletes, if_true]
    omega
  obtain ⟨halive, hfreed, href, _⟩ := hacc.deletes_eq hpos
  have hrelease := hacc.release_eq_false halive
  have hunreg : ¬ s.Registered c := fun hreg => by
    have hrefs := (hacc.alive_of_reg hreg).2.2
    omega
  have hone := oneService_set (d := c) h (v := { s.service c with
    queue := (s.service c).queue.markRelease.2, ctx := { (s.service c).ctx with freed := true } })
    rfl id (fun _ => rfl) Or.inl
  -- the queue is marked and pushed before the context is freed, with nothing in between
  have hgo : s.go w (.delete c) = ([], if (s.service c).queue.markRelease.1 then
      (s.setService c { s.service c with
        queue := (s.service c).queue.markRelease.2, ctx := { (s.service c).ctx with freed := true } }).globalPush c
      else s.setService c { s.service c with
        queue := (s.service c).queue.markRelease.2, ctx := { (s.service c).ctx with freed := true } }) := by
    simp only [go, markRelease, check_of (s := s) (b := !(s.service c).ctx.freed) (by rw [halive]; rfl),
      check_of (s := s) (b := !(s.service c).freed && !(s.service c).queue.release) (by rw [hfreed, hrelease]; rfl)]
    split
    · simp only [globalPush, setService_global]
      cases s.global.push c with
      | none => simp [setContext, setService, check]
      | some g => simp [setContext, setService]
    · simp [setContext, setService]
  rw [hgo]
  refine h.pushIf hst hone ?_ (List.forall_mem_nil _) ?_ ?_
  · intro hb
    rw [Nat.add_assoc] at hacc
    exact ⟨not_listed_of_account hacc halive hb, hc, fun hreg => absurd ((hone.registered_iff c).1 hreg) hunreg⟩
  · intro d hd
    simp [Frame.holds, Frame.refs, Frame.deletes, hd.symm]
  · intro P R D hacc
    simp only [Frame.holds, Frame.refs, Frame.deletes, if_true] at hacc
    refine (hacc.delete (by omega)).cast ?_ (by simp) (by simp)
    simp only [total_nil]
    split <;> omega

theorem inv_mqRelease (h : Inv s l) (hst : s.thread[t]? = some (.mqRelease q :: st)) :
    Leads s l t st false (s.go w (.mqRelease q)) := by
  obtain ⟨hq, hunreg⟩ := h.frameOk hst
  obtain ⟨P, R, D, hacc⟩ := h.account hst hq
  have hpos : 0 < (Frame.mqRelease q : Frame δ).holds q := by
    simp only [Frame.holds, if_true]
    omega
  have hfreed := (hacc.queue_of_places (by omega)).1
  rw [go]
  simp only [check_of (s := s) (b := !(s.service q).freed) (by rw [hfreed]; rfl)]
  split
  · rename_i hrelease
    refine ⟨l, .refl, h.reframe hst ?_ ?_⟩
    · intro f hf
      rw [List.mem_singleton.1 hf]
      exact ⟨hq, hrelease⟩
    · intro d
      simp [Frame.holds, Frame.refs, Frame.deletes]
  · obtain ⟨g, hg, hreps⟩ := globalPush_eq h.reps (h.not_listed hst hq hpos)
    rw [hg]
    refine ⟨l ++ [q], .push, h.move hst hreps ?_ (List.forall_mem_nil _) ?_⟩
    · intro c hc
      rcases List.mem_append.1 hc with hc | hc
      · exact Or.inl hc
      · rw [List.mem_singleton.1 hc]
        exact Or.inr ⟨hq, fun hreg => absurd hreg hunreg⟩
    · intro d
      rw [count_concat]
      simp only [Frame.holds, Frame.refs, Frame.deletes, total_nil]
      exact ⟨by omega, trivial, trivial⟩

/-- A context that is found by its handle gets a reference, for a message to it. -/
theorem inv_grab (h : Inv s l) (hst : s.thread[t]? = some (f :: st)) (handle : Nat) (msg : Message δ) :
    Leads s l t st false (s.grab handle (fun c => [.send c msg, f]) [f]) := by
  have hf := h.frameOk hst
  rw [grab]
  cases hg : s.handles.grab handle with
  | none =>
    refine ⟨l, .refl, h.reframe hst ?_ ?_⟩
    · intro g hg
      rw [List.mem_singleton.1 hg]
      exact hf
    · intro d
      simp
  | some c =>
    obtain ⟨hc, hh⟩ := h.registered _ c hg
    have hreg : s.Registered c := by
      rw [Registered, hh]
      exact hg
    obtain ⟨P, R, D, hacc⟩ := h.account hst hc
    have halive := (hacc.alive_of_reg hreg).1
    simp only [grabContext, check_of (s := s) (b := !(s.service c).ctx.freed) (by rw [halive]; rfl), setContext]
    have hone := oneService_set (d := c) h (v := { s.service c with
      ctx := { (s.service c).ctx with ref := (s.service c).ctx.ref + 1 } }) rfl id id Or.inl
    refine ⟨l, .refl, h.next hst hone h.reps (fun c hc => Or.inl hc) ?_ ?_ ?_⟩
    · intro g hg
      rcases List.mem_pair.1 hg with rfl | rfl
      · exact ⟨hc, trivial⟩
      · exact hone.later.frameOk hf
    · intro d hd
      simp [Frame.holds, Frame.refs, Frame.deletes, hd.symm]
    · intro P R D hacc
      have hsend : (Frame.send c msg).holds c = 0 ∧ (Frame.send c msg).refs c = 1 ∧ (Frame.send c msg).deletes c = 0 :=
        ⟨rfl, if_pos rfl, rfl⟩
      rw [setService_self]
      simp only [total_cons, total_nil, hsend]
      exact (hacc.grab hreg).cast (by omega) (by omega) (by omega)

/-- The number of the thread of a step is in range. -/
theorem getElem?_set_of_step (hst : s.thread[t]? = some (f :: st)) (fs : List (Frame δ)) :
    (s.thread.set t fs)[t]? = some fs :=
  List.getElem?_set_self (List.getElem?_eq_some_iff.1 hst).1

theorem inv_drop (h : Inv s l) (hst : s.thread[t]? = some (.drop q :: st)) :
    Leads s l t st false (s.go w (.drop q)) := by
  obtain ⟨hq, hrelease⟩ := h.frameOk hst
  obtain ⟨P, R, D, hacc⟩ := h.account hst hq
  have hpos : 0 < (Frame.drop q : Frame δ).holds q := by
    simp only [Frame.holds, if_true]
    omega
  have hfreed := (hacc.queue_of_places (by omega)).1
  have hfields := Account.pop_fields (s.service q).queue
  have hunreg : ¬ s.Registered q := (hacc.gone (hacc.release.symm.trans hrelease)).2
  rw [go]
  simp only [check_of (s := s) (b := !(s.service q).freed) (by rw [hfreed]; rfl)]
  split
  · rename_i m queue hpop
    obtain ⟨hsome, rfl⟩ : (s.service q).queue.pop.1 = some m ∧ (s.service q).queue.pop.2 = queue := by
      rw [hpop]
      exact ⟨rfl, rfl⟩
    have hone := oneService_set (d := q) h (v := { s.service q with
      queue := (s.service q).queue.pop.2
      dropped := (s.service q).dropped ++ [m] }) rfl id (fun hr => hfields.1.trans hr) fun hidle =>
      Or.inl ((hacc.pop_some_iff hsome).2.symm.trans hidle)
    have hok : (s.setService q { s.service q with
        queue := (s.service q).queue.pop.2
        dropped := (s.service q).dropped ++ [m] }).FrameOk (.drop q) := by
      refine ⟨hq, ?_⟩
      rw [Relies, setService_self]
      exact hfields.1.trans hrelease
    have hdropped := h.next hst hone h.reps (fun c hc => Or.inl hc)
      (fun g (hg : g ∈ [Frame.drop q]) => by
        rw [List.mem_singleton.1 hg]
        exact hok)
      (fun d hd => by simp)
      (fun P R D hacc => by
        rw [setService_self]
        simp only [total_cons, total_nil]
        exact (hacc.drop hrelease hsome).cast (by omega) (by omega) (by omega))
    -- the source of the error is the handle of the queue, which is not 0
    have hsource : ((s.setService q { s.service q with
        queue := (s.service q).queue.pop.2
        dropped := (s.service q).dropped ++ [m] }).service q).queue.handle ≠ 0 := by
      rw [setService_self]
      change (s.service q).queue.pop.2.handle ≠ 0
      rw [hfields.2, hacc.handle]
      exact (h.bound q hq).1.ne'
    simp only [dropMessage]
    rw [check_of (by simpa using hsource)]
    split
    · exact ⟨l, .refl, hdropped⟩
    · obtain ⟨l', hl'⟩ := inv_grab hdropped (getElem?_set_of_step hst _) m.source
        ⟨((s.setService q { s.service q with
          queue := (s.service q).queue.pop.2
          dropped := (s.service q).dropped ++ [m] }).service q).queue.handle, 0, PTYPE_ERROR, none⟩
      refine ⟨l', ?_⟩
      simp only [List.set_set, grab] at hl' ⊢
      split at hl' <;> exact hl'
  · rename_i queue hpop
    obtain ⟨hnone, rfl⟩ : (s.service q).queue.pop.1 = none ∧ (s.service q).queue.pop.2 = queue := by
      rw [hpop]
      exact ⟨rfl, rfl⟩
    -- the queue is in the hands of the thread, and so not linked
    have hlink : s.global.next q = none := by
      rw [h.reps.next]
      exact GlobalQueue.nextIn_not_mem (h.not_listed hst hq hpos)
    rw [check_of (by rw [hlink]; rfl)]
    have hready : (s.setService q { s.service q with
        queue := (s.service q).queue.pop.2
        freed := true }).Ready q := fun hreg => by
      rw [Registered, setService_self] at hreg
      exact absurd hreg hunreg
    refine ⟨l, .refl, h.next hst (oneService_set h rfl id (fun hr => hfields.1.trans hr) fun _ => Or.inr hready) h.reps
      (fun c hc => Or.inl hc) (List.forall_mem_nil _) ?_ ?_⟩
    · intro d hd
      simp [Frame.holds, Frame.refs, Frame.deletes, hd.symm]
    · intro P R D hacc
      simp only [Frame.holds, Frame.refs, Frame.deletes, if_true] at hacc
      rw [setService_self]
      simp only [total_nil]
      exact (hacc.free hrelease (by omega) hnone).cast (by omega) (by omega) (by omega)

theorem inv_send (h : Inv s l) (hst : s.thread[t]? = some (.send c msg :: st)) :
    Leads s l t st false (s.go w (.send c msg)) := by
  obtain ⟨hc, _⟩ := h.frameOk hst
  obtain ⟨P, R, D, hacc⟩ := h.account hst hc
  have hrefs : 0 < Frame.refs c (.send c msg : Frame δ) + R := by
    simp only [Frame.refs, if_true]
    omega
  obtain ⟨halive, hfreed, _⟩ := hacc.alive_of_refs hrefs
  have hfields : ((s.service c).queue.push msg).2.release = (s.service c).queue.release := by
    simp only [MessageQueue.push]
    rw [MessageQueue.write_eq]
    split <;> rfl
  have hone := oneService_set (d := c) h (v := { s.service c with
    queue := ((s.service c).queue.push msg).2
    pushed := (s.service c).pushed ++ [msg] }) rfl id (fun hr => hfields.trans hr) Bool.noConfusion
  rw [go, check_of (by rw [halive]; rfl)]
  simp only [mqPush, check_of (s := s) (b := !(s.service c).freed) (by rw [hfreed]; rfl)]
  refine h.pushIf hst hone ?_ ?_ ?_ ?_
  · intro hb
    rw [Nat.add_assoc] at hacc
    refine ⟨not_listed_of_account hacc halive hb, hc, ?_⟩
    have hidle : (s.service c).queue.in_global = false := by simpa [MessageQueue.push] using hb
    exact hone.later.ready hc (h.awake c hc hidle)
  · intro f hf
    rw [List.mem_singleton.1 hf]
    exact ⟨hc, trivial⟩
  · intro d hd
    simp [Frame.holds, Frame.refs, Frame.deletes, hd.symm]
  · intro P R D hacc
    simp only [Frame.holds, Frame.refs, Frame.deletes, if_true, total_cons, total_nil] at hacc ⊢
    refine (hacc.push (by omega) msg).cast ?_ (by omega) (by omega)
    split <;> omega

/-! ## A new service -/

/-- Whoever gives back the last reference has got no service that can be found. -/
theorem not_registered_of_last {P R D : Nat} (hacc : Account (s.service c) P R D (s.Registered c)) (hR : 0 < R)
    (hlast : (s.service c).ctx.ref - 1 = 0) : ¬ s.Registered c := fun hreg => by
  have href := (hacc.alive_of_reg hreg).2.2
  omega

theorem inv_initOk (h : Inv s l) (hst : s.thread[t]? = some (.initOk c :: st)) :
    Leads s l t st false (s.go w (.initOk c)) := by
  obtain ⟨hc, _⟩ := h.frameOk hst
  obtain ⟨P, R, D, hacc⟩ := h.account hst hc
  simp only [Frame.refs, if_true] at hacc
  have hone := oneService_set (d := c) h (v := { s.service c with
    ctx := { (s.service c).ctx with ref := (s.service c).ctx.ref - 1 } }) rfl id id Or.inl
  rw [go, decrement_eq hacc (by omega)]
  dsimp only
  refine ⟨l, .refl, inv_decrement h hst (if_pos rfl) ?_ ?_ ?_⟩
  · intro f hf
    split at hf
    · rename_i hlast
      have hunreg := not_registered_of_last hacc (by omega) (of_decide_eq_true hlast)
      rcases List.mem_pair.1 hf with rfl | rfl
      · exact ⟨hc, trivial⟩
      · exact ⟨hc, fun hreg => absurd ((hone.registered_iff c).1 hreg) hunreg⟩
    · rw [List.mem_singleton.1 hf]
      exact ⟨hc, trivial⟩
  · intro d hd
    split <;> simp [Frame.holds, Frame.refs, Frame.deletes, hd.symm]
  · split <;> simp_all [Frame.holds, Frame.refs, Frame.deletes]

theorem inv_setInit (h : Inv s l) (hst : s.thread[t]? = some (.setInit c :: st)) :
    Leads s l t st false (s.go w (.setInit c)) := by
  obtain ⟨hc, _⟩ := h.frameOk hst
  have hone := oneService_set (d := c) h (v := { s.service c with
    ctx := { (s.service c).ctx with init := true } }) rfl (fun _ => rfl) id Or.inl
  rw [go, setContext]
  refine ⟨l, .refl, h.next hst hone h.reps (fun c hc => Or.inl hc) ?_ ?_ ?_⟩
  · intro f hf
    rw [List.mem_singleton.1 hf]
    refine ⟨hc, fun _ => ?_⟩
    rw [setService_self]
  · intro d hd
    simp [Frame.holds, Frame.refs, Frame.deletes, hd.symm]
  · intro P R D hacc
    simp only [Frame.holds, Frame.refs, Frame.deletes, if_true, total_cons, total_nil] at hacc ⊢
    rw [setService_self]
    exact hacc.congr.cast (by omega) (by omega) (by omega)

theorem inv_launch (h : Inv s l) (hst : s.thread[t]? = some (.launch c :: st)) :
    Leads s l t st false (s.go w (.launch c)) := by
  obtain ⟨hc, hready⟩ := h.frameOk hst
  obtain ⟨P, R, D, hacc⟩ := h.account hst hc
  have hpos : 0 < (Frame.launch c : Frame δ).holds c := by
    simp only [Frame.holds, if_true]
    omega
  have hfreed := (hacc.queue_of_places (by omega)).1
  obtain ⟨g, hg, hreps⟩ := globalPush_eq h.reps (h.not_listed hst hc hpos)
  rw [go, check_of (by rw [hfreed]; rfl), hg]
  refine ⟨l ++ [c], .push, h.move hst hreps ?_ (List.forall_mem_nil _) ?_⟩
  · intro d hd
    rcases List.mem_append.1 hd with hd | hd
    · exact Or.inl hd
    · rw [List.mem_singleton.1 hd]
      exact Or.inr ⟨hc, hready⟩
  · intro d
    rw [count_concat]
    simp only [Frame.holds, Frame.refs, Frame.deletes, total_nil]
    exact ⟨by omega, trivial, trivial⟩

theorem inv_initFail (h : Inv s l) (hst : s.thread[t]? = some (.initFail c :: st)) :
    Leads s l t st false (s.go w (.initFail c)) := by
  obtain ⟨hc, _⟩ := h.frameOk hst
  obtain ⟨P, R, D, hacc⟩ := h.account hst hc
  simp only [Frame.refs, if_true] at hacc
  rw [go, decrement_eq hacc (by omega)]
  dsimp only
  refine ⟨l, .refl, inv_decrement h hst (if_pos rfl) ?_ ?_ ?_⟩
  · intro f hf
    rcases List.mem_append.1 hf with hf | hf
    · rw [releaseFrames] at hf
      split at hf
      · rw [List.mem_singleton.1 hf]
        exact ⟨hc, trivial⟩
      · cases hf
    · rw [List.mem_singleton.1 hf]
      exact ⟨hc, trivial⟩
  · intro d hd
    rw [releaseFrames]
    split <;> simp [Frame.holds, Frame.refs, Frame.deletes, hd.symm]
  · rw [releaseFrames]
    split <;> simp_all [Frame.holds, Frame.refs, Frame.deletes]

/-! ## Changes of the table -/

theorem registered_retire (hwf : s.handles.Wf) (handle : Nat) (d : Nat) :
    ({ s with handles := (s.handles.retire handle).2 } : Server δ).Registered d ↔
      s.Registered d ∧ (s.service d).ctx.handle ≠ handle := by
  rw [Registered, Registered]
  change (s.handles.retire handle).2.grab (s.service d).ctx.handle = some d ↔ _
  rw [HandleStorage.retire_spec hwf]
  by_cases hh : (s.service d).ctx.handle = handle
  · rw [hh, update_self]
    exact iff_of_false (Option.some_ne_none d).symm fun hno => hno.2 rfl
  · rw [update_of_ne hh]
    exact (and_iff_left hh).symm

/-- A service is retired: whoever does it has the reference of the table, and goes on with `rest`. -/
theorem inv_retire (h : Inv s l) (hst : s.thread[t]? = some (f :: st)) (handle : Nat) {rest : List (Frame δ)}
    (hrest : ∀ g ∈ rest, ({ s with handles := (s.handles.retire handle).2 } : Server δ).FrameOk g)
    (hcounts : ∀ c, total (Frame.holds c) rest = f.holds c ∧ total (Frame.refs c) rest = f.refs c ∧
      total (Frame.deletes c) rest = f.deletes c) :
    Inv { (s.retire handle rest).2 with thread := s.thread.set t ((s.retire handle rest).1 ++ st) } l := by
  have hlater : Later s { s with handles := (s.handles.retire handle).2 } :=
    ⟨Nat.le_refl _, fun _ _ => id, fun _ _ => id, fun c _ hreg => ((registered_retire h.table handle c).1 hreg).1⟩
  have hmem := List.mem_of_getElem? hst
  have heq := HandleStorage.retire_eq s.handles handle
  -- what the frames have, before the release of the context that is retired
  have htally : ∀ {w : Frame δ → Nat} {g : List (Frame δ)}, total w rest = w f →
      tally w (s.thread.set t (g ++ rest ++ st)) = tally w s.thread + total w g := by
    intro w g hw
    have hstep := tally_step (w := w) hst (g ++ rest)
    rw [← total, total, List.map_append, List.sum_append] at hstep
    rw [total] at hw ⊢
    omega
  suffices hmain : ∀ {g : List (Frame δ)},
      (∀ x ∈ g, ({ s with handles := (s.handles.retire handle).2 } : Server δ).FrameOk x) →
      (∀ c, total (Frame.holds c) g = 0 ∧ total (Frame.deletes c) g = 0 ∧
        total (Frame.refs c) g = if s.handles.grab handle = some c then 1 else 0) →
      Inv { s with handles := (s.handles.retire handle).2, thread := s.thread.set t (g ++ rest ++ st) } l by
    rw [retire]
    cases hr : s.handles.retire handle with
    | mk ctx handles =>
      rw [hr] at hmain heq
      cases ctx with
      | none =>
        refine hmain (g := []) (List.forall_mem_nil _) fun c => ?_
        rw [← heq]
        exact ⟨rfl, rfl, rfl⟩
      | some c =>
        have hc := (h.registered handle c heq.symm).1
        refine hmain (g := [.release c]) (fun x hx => ?_) fun d => ?_
        · rw [List.mem_singleton.1 hx]
          exact ⟨hc, trivial⟩
        · rw [← heq]
          simp only [total_cons, total_nil, Frame.holds, Frame.refs, Frame.deletes, Option.some.injEq]
          exact ⟨trivial, trivial, rfl⟩
  intro g hg hgcounts
  refine ⟨h.crash, h.reps, HandleStorage.wf_retire h.table handle, ?_, ?_, ?_, ?_, ?_, ?_, h.distinct, ?_⟩
  · change 0 < (s.handles.retire handle).2.handle_index
    rw [HandleStorage.retire_handle_index]
    exact h.index
  · exact fun c hc => ⟨(h.listed c hc).1, hlater.ready (h.listed c hc).1 (h.listed c hc).2⟩
  · exact fun c hc hidle => hlater.ready hc (h.awake c hc hidle)
  · refine forall_step (fun st' hst' x hx => hlater.frameOk (h.frames st' hst' x hx)) hst fun x hx => ?_
    rcases List.mem_append.1 hx with hx | hx
    · exact hg x hx
    · exact hrest x hx
  · intro c hc
    have hold := h.accounts c hc
    obtain ⟨h1, h2, h3⟩ := hcounts c
    obtain ⟨g1, g2, g3⟩ := hgcounts c
    change Account (s.service c) (l.count c + tally (Frame.holds c) (s.thread.set t (g ++ rest ++ st)))
      (tally (Frame.refs c) (s.thread.set t (g ++ rest ++ st)))
      (tally (Frame.deletes c) (s.thread.set t (g ++ rest ++ st)))
      (({ s with handles := (s.handles.retire handle).2 } : Server δ).Registered c)
    rw [htally h1, htally h2, htally h3, g1, g2, g3]
    by_cases hreg : s.handles.grab handle = some c
    · have hh := (h.registered handle c hreg).2
      have hwas : s.Registered c := by
        rw [Registered, hh]
        exact hreg
      have hnow : ({ s with handles := (s.handles.retire handle).2 } : Server δ).Registered c = False :=
        propext (iff_false_intro fun hno => ((registered_retire h.table handle c).1 hno).2 hh)
      rw [if_pos hreg, hnow]
      exact hold.retire hwas
    · have hsame : ({ s with handles := (s.handles.retire handle).2 } : Server δ).Registered c = s.Registered c := by
        refine propext ((registered_retire h.table handle c).trans (and_iff_left_of_imp fun hwas hh => ?_))
        rw [Registered, hh] at hwas
        exact hreg hwas
      rw [if_neg hreg, hsame]
      exact hold
  · intro x c hx
    change (s.handles.retire handle).2.grab x = some c at hx
    rw [HandleStorage.retire_spec h.table] at hx
    by_cases hxh : x = handle
    · rw [hxh, update_self] at hx
      cases hx
    · rw [update_of_ne hxh] at hx
      exact h.registered x c hx
  · intro c hc
    change _ ∧ _ < (s.handles.retire handle).2.harbor + (s.handles.retire handle).2.handle_index
    rw [HandleStorage.retire_harbor, HandleStorage.retire_handle_index]
    exact h.bound c hc

theorem inv_failRetire (h : Inv s l) (hst : s.thread[t]? = some (.failRetire c :: st)) :
    Leads s l t st false (s.go w (.failRetire c)) := by
  obtain ⟨hc, _⟩ := h.frameOk hst
  rw [go]
  refine ⟨l, .refl, inv_retire h hst _ ?_ ?_⟩
  · intro f hf
    rw [List.mem_singleton.1 hf]
    exact ⟨hc, fun hreg => ((registered_retire h.table _ c).1 hreg).2 rfl⟩
  · intro d
    simp [Frame.holds, Frame.refs, Frame.deletes]

/-- The server with a new service, before its module is initialized. -/
def created (s : Server δ) (handle : Nat) (handles : HandleStorage Nat) : Server δ :=
  { s.setService s.count ⟨⟨handle, 2, false, false, false⟩, .create handle, false, [], [], []⟩ with
    handles
    count := s.count + 1 }

/-- What is known of a new handle: it is above all those given before. -/
structure NewHandle (s : Server δ) (handle : Nat) (handles : HandleStorage Nat) : Prop where
  wf : handles.Wf
  grab : handles.grab = update s.handles.grab handle (some s.count)
  above : s.handles.harbor + s.handles.handle_index ≤ handle
  below : handle < handles.harbor + handles.handle_index
  index : 0 < handles.handle_index

theorem new_eq (h : Inv s l) (hroom : s.handles.Room) :
    ∃ handle handles, s.new = ([.init s.count], s.created handle handles) ∧ s.NewHandle handle handles := by
  have hroom24 : s.handles.handle_index + s.handles.slot.length * 2 ≤ 2 ^ 24 := hroom
  cases hr : s.handles.register s.count with
  | none =>
    have hlen := ((HandleStorage.register_eq_none h.table).1 hr).1
    omega
  | some r =>
    obtain ⟨handle, handles⟩ := r
    have hreg := HandleStorage.register_spec h.table hr
    have hfresh := HandleStorage.register_fresh h.table hroom hr
    have htag := HandleStorage.tagged_of_grab (h := handle) (c := s.count) hreg.wf (by rw [hreg.grab, update_self])
    have hdiv := Nat.div_add_mod handle (2 ^ 24)
    rw [hreg.harbor] at htag
    refine ⟨handle, handles, by rw [new, hr]; rfl, hreg.wf, hreg.grab, by omega, ?_, ?_⟩
    · rw [hreg.harbor, hreg.index]
      omega
    · rw [hreg.index]
      exact Nat.succ_pos _

section Created

variable {handle : Nat} {handles : HandleStorage Nat}

theorem created_old (hne : c ≠ s.count) : (s.created handle handles).service c = s.service c := update_of_ne hne _ _

theorem created_new : (s.created handle handles).service s.count =
    ⟨⟨handle, 2, false, false, false⟩, .create handle, false, [], [], []⟩ := setService_self _

theorem registered_created (h : Inv s l) (hnew : s.NewHandle handle handles) (hc : c < s.count) :
    (s.created handle handles).Registered c ↔ s.Registered c := by
  have hbound := (h.bound c hc).2
  have habove := hnew.above
  have hne : (s.service c).ctx.handle ≠ handle := by omega
  rw [Registered, Registered, created_old (Nat.ne_of_lt hc)]
  change handles.grab _ = some c ↔ _
  rw [hnew.grab, update_of_ne hne]

theorem later_created (h : Inv s l) (hnew : s.NewHandle handle handles) : Later s (s.created handle handles) := by
  refine ⟨Nat.le_succ _, ?_, ?_, fun c hc hreg => (registered_created h hnew hc).1 hreg⟩
  · intro c hc hinit
    rwa [created_old (Nat.ne_of_lt hc)]
  · intro c hc hrel
    rwa [created_old (Nat.ne_of_lt hc)]

end Created

/-- A service is created while there is room for handles: it gets a handle that none has had before. -/
theorem inv_new (h : Inv s l) (hst : s.thread[t]? = some (f :: st)) (hroom : s.handles.Room) :
    Inv { s.new.2 with thread := s.thread.set t (s.new.1 ++ [f] ++ st) } l := by
  obtain ⟨handle, handles, heq, hnew⟩ := new_eq h hroom
  have hlater := later_created h hnew
  have hzero : ∀ st ∈ s.thread, ∀ g ∈ st, g.holds s.count = 0 ∧ g.refs s.count = 0 ∧ g.deletes s.count = 0 :=
    fun st hst g hg => (h.frames st hst g hg).1.zero (Nat.le_refl _)
  have htally : ∀ w : Frame δ → Nat, tally w (s.thread.set t ([.init s.count] ++ [f] ++ st)) =
      tally w s.thread + w (.init s.count) := by
    intro w
    have hstep := tally_step (w := w) hst ([.init s.count] ++ [f])
    rw [List.map_append, List.sum_append, List.map_singleton, List.map_singleton, List.sum_singleton,
      List.sum_singleton] at hstep
    omega
  rw [heq]
  refine ⟨h.crash, h.reps, hnew.wf, hnew.index, ?_, ?_, ?_, ?_, ?_, ?_, ?_⟩
  · intro c hc
    obtain ⟨hlt, hready⟩ := h.listed c hc
    exact ⟨Nat.lt_succ_of_lt hlt, hlater.ready hlt hready⟩
  · intro c hc hidle
    rcases Nat.lt_succ_iff_lt_or_eq.1 hc with hlt | rfl
    · have hold : (s.service c).queue.in_global = false := by
        rwa [created_old (Nat.ne_of_lt hlt)] at hidle
      exact hlater.ready hlt (h.awake c hlt hold)
    · have hnew : ((s.created handle handles).service s.count).queue.in_global = false := hidle
      rw [created_new] at hnew
      cases hnew
  · refine forall_step (fun st' hst' g hg => hlater.frameOk (h.frames st' hst' g hg)) hst fun g hg => ?_
    rcases List.mem_pair.1 hg with rfl | rfl
    · exact ⟨Nat.lt_succ_self s.count, trivial⟩
    · exact hlater.frameOk (h.frameOk hst)
  · intro c hc
    change Account ((s.created handle handles).service c)
      (l.count c + tally (Frame.holds c) (s.thread.set t ([.init s.count] ++ [f] ++ st)))
      (tally (Frame.refs c) (s.thread.set t ([.init s.count] ++ [f] ++ st)))
      (tally (Frame.deletes c) (s.thread.set t ([.init s.count] ++ [f] ++ st)))
      ((s.created handle handles).Registered c)
    rw [htally, htally, htally]
    rcases Nat.lt_succ_iff_lt_or_eq.1 hc with hlt | rfl
    · have hne : s.count ≠ c := (Nat.ne_of_lt hlt).symm
      rw [created_old (Nat.ne_of_lt hlt), propext (registered_created h hnew hlt)]
      exact (h.accounts c hlt).cast (by simp [Frame.holds, hne]) (by simp [Frame.refs, hne]) rfl
    · have hreg : (s.created handle handles).Registered s.count = True := by
        refine propext (iff_true_intro ?_)
        rw [Registered, created_new]
        change handles.grab handle = some s.count
        rw [hnew.grab, update_self]
      have hl : l.count s.count = 0 := List.count_eq_zero.2 fun hmem => by
        have hlt := (h.listed _ hmem).1
        omega
      rw [created_new, hreg, hl, tally_eq_zero fun st hst g hg => (hzero st hst g hg).1,
        tally_eq_zero fun st hst g hg => (hzero st hst g hg).2.1,
        tally_eq_zero fun st hst g hg => (hzero st hst g hg).2.2]
      exact (Account.create handle).cast (by simp [Frame.holds]) (by simp [Frame.refs]) rfl
  · intro x c hx
    change handles.grab x = some c at hx
    rw [hnew.grab] at hx
    by_cases hxh : x = handle
    · rw [hxh, update_self] at hx
      cases hx
      refine ⟨Nat.lt_succ_self s.count, ?_⟩
      change ((s.created handle handles).service s.count).ctx.handle = x
      rw [created_new, hxh]
    · rw [update_of_ne hxh] at hx
      obtain ⟨hlt, hh⟩ := h.registered x c hx
      refine ⟨Nat.lt_succ_of_lt hlt, ?_⟩
      change ((s.created handle handles).service c).ctx.handle = x
      rwa [created_old (Nat.ne_of_lt hlt)]
  · intro c hc d hd heq
    change ((s.created handle handles).service c).ctx.handle = ((s.created handle handles).service d).ctx.handle at heq
    have habove := hnew.above
    rcases Nat.lt_succ_iff_lt_or_eq.1 hc with hc' | rfl <;> rcases Nat.lt_succ_iff_lt_or_eq.1 hd with hd' | rfl
    · rw [created_old (Nat.ne_of_lt hc'), created_old (Nat.ne_of_lt hd')] at heq
      exact h.distinct c hc' d hd' heq
    · rw [created_old (Nat.ne_of_lt hc'), created_new] at heq
      have hbound := (h.bound c hc').2
      dsimp only at heq
      omega
    · rw [created_old (Nat.ne_of_lt hd'), created_new] at heq
      have hbound := (h.bound d hd').2
      dsimp only at heq
      omega
    · rfl
  · intro c hc
    change 0 < ((s.created handle handles).service c).ctx.handle ∧
      ((s.created handle handles).service c).ctx.handle < handles.harbor + handles.handle_index
    have habove := hnew.above
    have hbelow := hnew.below
    have hindex := h.index
    rcases Nat.lt_succ_iff_lt_or_eq.1 hc with hc' | rfl
    · rw [created_old (Nat.ne_of_lt hc')]
      have hbound := h.bound c hc'
      omega
    · rw [created_new]
      dsimp only
      omega

end Server

end RoundGame.Skynet
