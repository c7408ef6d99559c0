import RoundGame.Skynet.Server

/-!
# The account of a service

What there is of one service, counted over the whole server: in how many `places` its queue is (the global queue, and
the hands of the threads), how many references to its context are held (`refs`), how many threads are about to delete
it (`deletes`), and whether it is registered (`reg`).

`Account` ties these counts to the fields of the service: a queue is in one place exactly when its flag says so, the
counter of a context is the number of its references, and what was pushed to the queue was taken, dropped, or is still
there. Each operation of a thread has one lemma here, which says what it does to the counts.
-/

namespace RoundGame.Skynet

variable {δ : Type}

structure Account (sv : Service δ) (places refs deletes : Nat) (reg : Prop) : Prop where
  place : places = if sv.freed = false ∧ (sv.queue.release = true ∨ sv.queue.in_global = true) then 1 else 0
  ref_reg : sv.ctx.freed = false → reg → sv.ctx.ref = refs + 1
  ref_unreg : sv.ctx.freed = false → ¬ reg → sv.ctx.ref = refs
  gone : sv.ctx.freed = true → refs = 0 ∧ ¬ reg
  deleting : deletes = if sv.ctx.freed = false ∧ sv.ctx.ref = 0 then 1 else 0
  release : sv.queue.release = sv.ctx.freed
  freed : sv.freed = true → sv.ctx.freed = true ∧ sv.queue.contents = []
  wf : sv.queue.Wf
  handle : sv.queue.handle = sv.ctx.handle
  fifo : sv.pushed = sv.taken ++ sv.dropped ++ sv.queue.contents
  dropped : sv.dropped ≠ [] → sv.ctx.freed = true
  idle : sv.queue.in_global = false → sv.queue.contents = []

namespace Account

variable {sv : Service δ} {places refs deletes : Nat} {reg : Prop}

theorem cast {places' refs' deletes' : Nat} (h : Account sv places refs deletes reg) (hp : places = places')
    (hr : refs = refs') (hd : deletes = deletes') : Account sv places' refs' deletes' reg := by
  subst hp hr hd
  exact h

/-- A context is there while somebody has a reference to it, and so is its queue. -/
theorem alive_of_refs (h : Account sv places refs deletes reg) (hr : 0 < refs) :
    sv.ctx.freed = false ∧ sv.freed = false ∧ 0 < sv.ctx.ref := by
  have hctx : sv.ctx.freed = false := by
    rw [← Bool.not_eq_true]
    intro hfreed
    have hzero := (h.gone hfreed).1
    omega
  refine ⟨hctx, ?_, ?_⟩
  · rw [← Bool.not_eq_true]
    intro hfreed
    rw [(h.freed hfreed).1] at hctx
    cases hctx
  · by_cases hreg : reg
    · rw [h.ref_reg hctx hreg]
      exact Nat.succ_pos refs
    · rwa [h.ref_unreg hctx hreg]

theorem alive_of_reg (h : Account sv places refs deletes reg) (hreg : reg) :
    sv.ctx.freed = false ∧ sv.freed = false ∧ sv.ctx.ref = refs + 1 := by
  have hctx : sv.ctx.freed = false := by
    rw [← Bool.not_eq_true]
    exact fun hfreed => (h.gone hfreed).2 hreg
  refine ⟨hctx, ?_, h.ref_reg hctx hreg⟩
  rw [← Bool.not_eq_true]
  intro hfreed
  rw [(h.freed hfreed).1] at hctx
  cases hctx

/-- A queue is there while it is somewhere, and it is in one place only. -/
theorem queue_of_places (h : Account sv places refs deletes reg) (hp : 0 < places) :
    sv.freed = false ∧ places = 1 := by
  have hplace := h.place
  split at hplace
  · rename_i hcond
    exact ⟨hcond.1, hplace⟩
  · omega

theorem places_le_one (h : Account sv places refs deletes reg) : places ≤ 1 := by
  rw [h.place]
  split <;> omega

theorem deletes_eq (h : Account sv places refs deletes reg) (hd : 0 < deletes) :
    sv.ctx.freed = false ∧ sv.freed = false ∧ sv.ctx.ref = 0 ∧ deletes = 1 := by
  have hdel := h.deleting
  split at hdel
  · rename_i hcond
    refine ⟨hcond.1, ?_, hcond.2, hdel⟩
    rw [← Bool.not_eq_true]
    intro hfreed
    rw [(h.freed hfreed).1] at hcond
    cases hcond.1
  · omega

/-- The context of a queue that is marked for release was freed, so nobody has a reference any more. -/
theorem release_eq_false (h : Account sv places refs deletes reg) (hctx : sv.ctx.freed = false) :
    sv.queue.release = false := h.release.trans hctx

/-- A queue that is pushed to the global queue when its flag is not set is in one place afterwards. -/
theorem listed_once (h : Account sv places refs deletes reg) (hctx : sv.ctx.freed = false) :
    (if (!sv.queue.in_global) = true then places + 1 else places) = 1 := by
  have hfreed : sv.freed = false := by
    rw [← Bool.not_eq_true]
    intro hfreed
    rw [(h.freed hfreed).1] at hctx
    cases hctx
  have hplace : places = if sv.queue.in_global = true then 1 else 0 := by
    rw [h.place, h.release_eq_false hctx, hfreed]
    simp
  rw [hplace]
  cases sv.queue.in_global <;> rfl

/-- A message is pushed by somebody who has a reference. -/
theorem push (h : Account sv places refs deletes reg) (hr : 0 < refs) (msg : Message δ) :
    Account { sv with queue := (sv.queue.push msg).2, pushed := sv.pushed ++ [msg] }
      (if (sv.queue.push msg).1 then places + 1 else places) refs deletes reg := by
  obtain ⟨hctx, hfreed, _⟩ := h.alive_of_refs hr
  have hrelease := h.release_eq_false hctx
  have hcontents := MessageQueue.contents_push h.wf msg
  refine ⟨?_, h.ref_reg, h.ref_unreg, h.gone, h.deleting, ?_, ?_, MessageQueue.wf_push h.wf msg, ?_, ?_, h.dropped, ?_⟩
  · exact (h.listed_once hctx).trans (if_pos ⟨hfreed, Or.inr rfl⟩).symm
  · have hsame : (sv.queue.push msg).2.release = sv.queue.release := by
      simp only [MessageQueue.push]
      rw [MessageQueue.write_eq]
      split <;> rfl
    rw [hsame]
    exact h.release
  · intro hno
    rw [hfreed] at hno
    cases hno
  · have hsame : (sv.queue.push msg).2.handle = sv.queue.handle := by
      simp only [MessageQueue.push]
      rw [MessageQueue.write_eq]
      split <;> rfl
    rw [hsame]
    exact h.handle
  · rw [hcontents, h.fifo, List.append_assoc _ _ [msg]]
  · intro hno
    cases hno

theorem pop_fields (q : MessageQueue (Message δ)) : q.pop.2.release = q.release ∧ q.pop.2.handle = q.handle := by
  rw [MessageQueue.pop]
  split <;> exact ⟨rfl, rfl⟩

/-- What a pop finds in the queue of an account. -/
theorem pop_some_iff (h : Account sv places refs deletes reg) {msg : Message δ} (hpop : sv.queue.pop.1 = some msg) :
    sv.queue.contents = msg :: sv.queue.pop.2.contents ∧ sv.queue.pop.2.in_global = sv.queue.in_global := by
  cases hc : sv.queue.contents with
  | nil =>
    rw [MessageQueue.pop_nil h.wf hc] at hpop
    cases hpop
  | cons m ms =>
    obtain ⟨hm, htl, hglobal⟩ := MessageQueue.pop_cons h.wf hc
    rw [hm] at hpop
    cases hpop
    exact ⟨by rw [htl], hglobal⟩

theorem pop_none_iff (h : Account sv places refs deletes reg) (hpop : sv.queue.pop.1 = none) :
    sv.queue.contents = [] ∧
      sv.queue.pop.2 = { sv.queue with overload_threshold := MQ_OVERLOAD, in_global := false } := by
  cases hc : sv.queue.contents with
  | nil => exact ⟨rfl, by rw [MessageQueue.pop_nil h.wf hc]⟩
  | cons m ms =>
    obtain ⟨hm, _, _⟩ := MessageQueue.pop_cons h.wf hc
    rw [hm] at hpop
    cases hpop

/-- A worker takes a message. -/
theorem take (h : Account sv places refs deletes reg) (hr : 0 < refs) {msg : Message δ}
    (hpop : sv.queue.pop.1 = some msg) :
    Account { sv with queue := sv.queue.pop.2, taken := sv.taken ++ [msg] } places refs deletes reg := by
  obtain ⟨hctx, hfreed, _⟩ := h.alive_of_refs hr
  obtain ⟨hc, hglobal⟩ := h.pop_some_iff hpop
  obtain ⟨hrelease, hhandle⟩ := pop_fields sv.queue
  have hdropped : sv.dropped = [] := by
    by_contra hne
    rw [h.dropped hne] at hctx
    cases hctx
  refine ⟨?_, h.ref_reg, h.ref_unreg, h.gone, h.deleting, hrelease.trans h.release, ?_, MessageQueue.wf_pop h.wf,
    hhandle.trans h.handle, ?_, h.dropped, ?_⟩
  · rw [hrelease, hglobal]
    exact h.place
  · intro hno
    rw [hfreed] at hno
    cases hno
  · rw [h.fifo, hc, hdropped, List.append_nil, List.append_nil, List.append_assoc]
    rfl
  · intro hno
    rw [hglobal] at hno
    rw [h.idle hno] at hc
    cases hc

/-- A worker finds the queue empty, and gives it up. -/
theorem giveUp (h : Account sv places refs deletes reg) (hr : 0 < refs) (hp : 0 < places)
    (hpop : sv.queue.pop.1 = none) :
    Account { sv with queue := sv.queue.pop.2 } (places - 1) refs deletes reg := by
  obtain ⟨hctx, hfreed, _⟩ := h.alive_of_refs hr
  obtain ⟨hc, heq⟩ := h.pop_none_iff hpop
  rw [heq]
  refine ⟨?_, h.ref_reg, h.ref_unreg, h.gone, h.deleting, h.release, ?_, ⟨h.wf.head, h.wf.tail⟩, h.handle, h.fifo,
    h.dropped, fun _ => hc⟩
  · rw [(h.queue_of_places hp).2]
    have hrelease := h.release_eq_false hctx
    rw [if_neg]
    simp only [hrelease]
    simp
  · intro hno
    rw [hfreed] at hno
    cases hno

/-- The overload is read. -/
theorem report (h : Account sv places refs deletes reg) :
    Account { sv with queue := sv.queue.takeOverload.2 } places refs deletes reg :=
  ⟨h.place, h.ref_reg, h.ref_unreg, h.gone, h.deleting, h.release, h.freed, ⟨h.wf.head, h.wf.tail⟩, h.handle, h.fifo,
    h.dropped, h.idle⟩

/-- A registered context gets one more reference. -/
theorem grab (h : Account sv places refs deletes reg) (hreg : reg) :
    Account { sv with ctx := { sv.ctx with ref := sv.ctx.ref + 1 } } places (refs + 1) deletes reg := by
  obtain ⟨hctx, _, href⟩ := h.alive_of_reg hreg
  refine ⟨h.place, fun _ _ => congrArg (· + 1) href, fun _ hno => absurd hreg hno, ?_, ?_, h.release, h.freed, h.wf,
    h.handle, h.fifo, h.dropped, h.idle⟩
  · intro hno
    dsimp only at hno
    rw [hctx] at hno
    cases hno
  · have hdel := h.deleting
    rw [if_neg (by omega)] at hdel
    rw [if_neg (by dsimp only; omega)]
    exact hdel

/-- Somebody gives back a reference. Whoever gives back the last one is to delete the context. -/
theorem decrement (h : Account sv places refs deletes reg) (hr : 0 < refs) :
    Account { sv with ctx := { sv.ctx with ref := sv.ctx.ref - 1 } } places (refs - 1)
      (if sv.ctx.ref - 1 = 0 then deletes + 1 else deletes) reg := by
  obtain ⟨hctx, _, hpos⟩ := h.alive_of_refs hr
  refine ⟨h.place, ?_, ?_, ?_, ?_, h.release, h.freed, h.wf, h.handle, h.fifo, h.dropped, h.idle⟩
  · intro hf hreg
    have href := h.ref_reg hf hreg
    dsimp only
    omega
  · intro hf hreg
    have href := h.ref_unreg hf hreg
    dsimp only
    omega
  · intro hno
    dsimp only at hno
    rw [hctx] at hno
    cases hno
  · have hdel := h.deleting
    rw [if_neg (by omega)] at hdel
    rw [hdel]
    simp only [hctx, true_and]

/-- The reference of the table goes to whoever retires the service. -/
theorem retire (h : Account sv places refs deletes reg) (hreg : reg) :
    Account sv places (refs + 1) deletes False := by
  obtain ⟨hctx, _, href⟩ := h.alive_of_reg hreg
  refine ⟨h.place, fun _ hno => hno.elim, fun _ _ => href, ?_, h.deleting, h.release, h.freed, h.wf, h.handle, h.fifo,
    h.dropped, h.idle⟩
  intro hno
  rw [hctx] at hno
  cases hno

/-- The context is freed. Its queue is marked, and goes to the global queue when it is nowhere. -/
theorem delete (h : Account sv places refs deletes reg) (hd : 0 < deletes) :
    Account { sv with queue := sv.queue.markRelease.2, ctx := { sv.ctx with freed := true } }
      (if sv.queue.markRelease.1 then places + 1 else places) refs (deletes - 1) reg := by
  obtain ⟨hctx, hfreed, href, hdel⟩ := h.deletes_eq hd
  have hunreg : ¬ reg := fun hreg => by
    have hrefs := h.ref_reg hctx hreg
    omega
  have hrefs := h.ref_unreg hctx hunreg
  refine ⟨?_, nofun, nofun, fun _ => ⟨by omega, hunreg⟩, ?_, rfl, ?_, ⟨h.wf.head, h.wf.tail⟩, h.handle, h.fifo,
    fun _ => rfl, h.idle⟩
  · exact (h.listed_once hctx).trans (if_pos ⟨hfreed, Or.inl rfl⟩).symm
  · rw [hdel]
    rfl
  · intro hno
    rw [hfreed] at hno
    cases hno

/-- A message of a queue that was marked is dropped. -/
theorem drop (h : Account sv places refs deletes reg) (hrelease : sv.queue.release = true) {msg : Message δ}
    (hpop : sv.queue.pop.1 = some msg) :
    Account { sv with queue := sv.queue.pop.2, dropped := sv.dropped ++ [msg] } places refs deletes reg := by
  have hctx : sv.ctx.freed = true := h.release.symm.trans hrelease
  obtain ⟨hc, hglobal⟩ := h.pop_some_iff hpop
  obtain ⟨hrel, hhandle⟩ := pop_fields sv.queue
  refine ⟨?_, h.ref_reg, h.ref_unreg, h.gone, h.deleting, hrel.trans h.release, ?_, MessageQueue.wf_pop h.wf,
    hhandle.trans h.handle, ?_, fun _ => hctx, ?_⟩
  · rw [hrel, hglobal]
    exact h.place
  · intro hfreed
    rw [(h.freed hfreed).2] at hc
    cases hc
  · rw [h.fifo, hc]
    simp
  · intro hno
    rw [hglobal] at hno
    rw [h.idle hno] at hc
    cases hc

/-- The queue that was marked is empty, and is freed. -/
theorem free (h : Account sv places refs deletes reg) (hrelease : sv.queue.release = true) (hp : 0 < places)
    (hpop : sv.queue.pop.1 = none) :
    Account { sv with queue := sv.queue.pop.2, freed := true } (places - 1) refs deletes reg := by
  have hctx : sv.ctx.freed = true := h.release.symm.trans hrelease
  obtain ⟨hc, heq⟩ := h.pop_none_iff hpop
  rw [heq]
  refine ⟨?_, h.ref_reg, h.ref_unreg, h.gone, h.deleting, h.release, fun _ => ⟨hctx, hc⟩, ⟨h.wf.head, h.wf.tail⟩,
    h.handle, h.fifo, h.dropped, fun _ => hc⟩
  rw [(h.queue_of_places hp).2]
  rfl

/-- What the counts do not depend on. -/
theorem congr (h : Account sv places refs deletes reg) {init cb : Bool} :
    Account { sv with ctx := { sv.ctx with init, cb } } places refs deletes reg :=
  ⟨h.place, h.ref_reg, h.ref_unreg, h.gone, h.deleting, h.release, h.freed, h.wf, h.handle, h.fifo, h.dropped, h.idle⟩

/-- A new service: the creator has its queue and one of the two references. -/
theorem create (handle : Nat) :
    Account (δ := δ) ⟨⟨handle, 2, false, false, false⟩, .create handle, false, [], [], []⟩ 1 1 0 True := by
  refine ⟨rfl, fun _ _ => rfl, fun _ hno => absurd trivial hno, nofun, rfl, rfl, nofun, MessageQueue.wf_create handle,
    rfl, rfl, fun hno => absurd rfl hno, nofun⟩

end Account

end RoundGame.Skynet
