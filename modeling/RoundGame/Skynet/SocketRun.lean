import RoundGame.Skynet.SocketClose

/-!
# Runs of the socket server

`Goes S act T`: what one step does. It is proved for each step (`perform_goes`) and carried over a run (`run_goes`). Of
every run from the start, until the counter of ids comes round:

- no assertion fails (`run_asserts`);
- what is written to a socket are whole packages, in the order of their priority (`run_stream`);
- no package is lost or freed twice (`run_kept`);
- a socket that has something to write waits for the kernel (`run_writing`), and one that is half closed is closed when
  the kernel takes what is left (`run_closes`);
- the slots in use have different ids (`run_ids`).
-/

namespace RoundGame.Skynet.SocketServer

open Function Outbox StepSys

variable {β : Type} {S T : Server β} {act : Act β} {k : Nat} {t : Socket β}

namespace Server

/-- The packages for the slot `k` that did not come to the socket thread yet. -/
def inFlight (S : Server β) (k : Nat) : Multiset (Package β) := (S.queued.map (Cmd.packages k)).sum

def Quiet (S : Server β) (k : Nat) : Prop := ∀ c ∈ S.queued, ¬ c.Shuts k

/-- What a step does: the invariant is kept, no package is lost or doubled, and none is lost without a reason. -/
structure Goes (S : Server β) (act : Act β) (T : Server β) : Prop where
  inv : T.Inv
  all : ∀ k, (T.slot k).all + T.inFlight k = (S.slot k).all + S.inFlight k + act.handed k
  lost : ∀ k, ¬ act.Breaks S k → S.Quiet k → (T.slot k).lost = (S.slot k).lost ∧ T.Quiet k
  safe : (∀ k, (S.slot k).Plain) → T.aborted = false

theorem apply_update {γ : Type} (f : Socket β → γ) (h : f t = f (S.slot k)) (j : Nat) :
    f (update S.slot k t j) = f (S.slot j) := by
  by_cases hj : j = k
  · rw [hj, update_self, h]
  · rw [update_of_ne hj]

theorem Inv.abort (h : S.Inv) : Inv { S with aborted := true } :=
  ⟨h.ok, h.waits, h.home, h.given, h.known, h.fresh, h.filling, h.nodup, h.first, h.reserved⟩

section OnSlot

variable {r : Option (Socket β × Option (Report β))} {sent : Multiset (Package β)}

theorem onSlot_inv (h : S.Inv) (hr : ∀ t rep, r = some (t, rep) → (S.slot k).Leads sent t ∧ t.Waits) :
    (S.onSlot k r).Inv := by
  cases r with
  | none => exact h.abort
  | some p =>
    obtain ⟨hleads, hwaits⟩ := hr p.1 p.2 rfl
    exact h.move k hleads.ok hwaits hleads.id hleads.type

theorem onSlot_queued : (S.onSlot k r).queued = S.queued := by
  cases r <;> rfl

theorem onSlot_all (hr : ∀ t rep, r = some (t, rep) → (S.slot k).Leads sent t ∧ t.Waits) (hnone : r = none → sent = 0)
    (j : Nat) : ((S.onSlot k r).slot j).all = (S.slot j).all + if j = k then sent else 0 := by
  cases r with
  | none =>
    rw [hnone rfl, ite_self, add_zero]
    rfl
  | some p =>
    show (update S.slot k p.1 j).all = _
    by_cases hj : j = k
    · rw [hj, update_self, if_pos rfl, (hr p.1 p.2 rfl).1.all]
    · rw [update_of_ne hj, if_neg hj, add_zero]

theorem onSlot_lost {j : Nat} (hr : j = k → ∀ t rep, r = some (t, rep) → t.lost = (S.slot k).lost) :
    ((S.onSlot k r).slot j).lost = (S.slot j).lost := by
  cases r with
  | none => rfl
  | some p =>
    show (update S.slot k p.1 j).lost = _
    by_cases hj : j = k
    · rw [hj, update_self, hr hj p.1 p.2 rfl]
    · rw [update_of_ne hj]

theorem onSlot_aborted (hr : r.isSome) : (S.onSlot k r).aborted = S.aborted := by
  cases r with
  | none => cases hr
  | some p => rfl

end OnSlot

/-- An event for the slot `k`. -/
theorem onSlot_goes {r : Option (Socket β × Option (Report β))} (h : S.Inv) (hrun : S.aborted = false)
    (hhanded : ∀ j, act.handed j = 0) (hr : ∀ t rep, r = some (t, rep) → (S.slot k).Leads 0 t ∧ t.Waits ∧
      (¬ act.Breaks S k → t.lost = (S.slot k).lost)) (hsafe : (S.slot k).Plain → r.isSome) :
    S.Goes act (S.onSlot k r) where
  inv := onSlot_inv h fun t rep heq => ⟨(hr t rep heq).1, (hr t rep heq).2.1⟩
  all j := by
    rw [onSlot_all (fun t rep heq => ⟨(hr t rep heq).1, (hr t rep heq).2.1⟩) (fun _ => rfl), ite_self, add_zero,
      hhanded, add_zero, inFlight, onSlot_queued, inFlight]
  lost j hb hq := by
    refine ⟨onSlot_lost fun hj t rep heq => (hr t rep heq).2.2 ?_, ?_⟩
    · rwa [hj] at hb
    · rwa [Quiet, onSlot_queued]
  safe hplain := by rw [onSlot_aborted (hsafe (hplain k)), hrun]

theorem inFlight_pop {c : Cmd β} {pipe : List (Cmd β)} (hpipe : S.pipe = c :: pipe) (j : Nat) :
    S.inFlight j = c.packages j + inFlight { S with pipe := pipe } j := by
  rw [inFlight, ((queued_pop hpipe).map _).sum_eq, List.map_cons, List.sum_cons]
  rfl

theorem quiet_pop {c : Cmd β} {pipe : List (Cmd β)} (hpipe : S.pipe = c :: pipe) {j : Nat} (h : S.Quiet j) :
    ¬ c.Shuts j ∧ Quiet { S with pipe := pipe } j := by
  have hmem := fun d => (queued_pop hpipe).mem_iff (a := d)
  exact ⟨h c ((hmem c).2 List.mem_cons_self), fun d hd => h d ((hmem d).2 (List.mem_cons_of_mem _ hd))⟩

theorem ctrl_goes {c : Cmd β} {pipe : List (Cmd β)} {K : Kernel} (h : S.Inv) (hrun : S.aborted = false)
    (hpipe : S.pipe = c :: pipe) :
    S.Goes (.ctrl K) (onSlot { S with pipe := pipe } (hashId c.id) (c.run K (S.slot (hashId c.id)))) := by
  cases hc : c.opens with
  | true =>
    have hcmem : c ∈ S.queued := (queued_pop hpipe).mem_iff.2 List.mem_cons_self
    obtain ⟨t, rep, heq, hfilled⟩ := run_filled (K := K) hc (h.ok _) (h.filling c hcmem hc).1
    rw [heq]
    refine ⟨h.fill hpipe hc hfilled, fun j => ?_, fun j hb hq => ⟨?_, (quiet_pop hpipe hq).2⟩, fun _ => hrun⟩
    · rw [inFlight_pop hpipe, packages_of_opens hc, zero_add]
      show (update S.slot (hashId c.id) t j).all + _ = _ + 0
      rw [add_zero, apply_update Socket.all hfilled.all]
      rfl
    · exact apply_update Socket.lost hfilled.lost j
  | false =>
    have hr := h.not_reserved hpipe hc
    have hpop := h.pop hpipe hc
    have hleads : ∀ t rep, c.run K (S.slot (hashId c.id)) = some (t, rep) →
        (S.slot (hashId c.id)).Leads (c.packages (hashId c.id)) t ∧ t.Waits ∧
          (¬ K.Fails → ¬ c.Shuts (hashId c.id) → t.lost = (S.slot (hashId c.id)).lost) :=
      fun t rep heq => run_leads hc (h.ok _) (h.waits _) hr heq
    have hnone : c.run K (S.slot (hashId c.id)) = none → c.packages (hashId c.id) = 0 := by
      intro heq
      cases c with
      | send id package =>
        have hsome : (Cmd.run K (S.slot (hashId id)) (.send id package)).isSome := Socket.sendSocket_isSome hr
        rw [show Cmd.run K (S.slot (hashId id)) (.send id package) = none from heq] at hsome
        cases hsome
      | _ => rfl
    have hslot : ∀ t rep, c.run K (S.slot (hashId c.id)) = some (t, rep) →
        (Server.slot { S with pipe := pipe } (hashId c.id)).Leads (c.packages (hashId c.id)) t ∧ t.Waits :=
      fun t rep heq => ⟨(hleads t rep heq).1, (hleads t rep heq).2.1⟩
    refine ⟨onSlot_inv hpop hslot, fun j => ?_, fun j hb hq => ?_, fun hplain => ?_⟩
    · rw [onSlot_all hslot hnone, inFlight_pop hpipe, inFlight, onSlot_queued,
        show (Act.ctrl K : Act β).handed j = 0 from rfl, add_zero, ← inFlight]
      by_cases hj : j = hashId c.id
      · rw [hj, if_pos rfl, add_assoc]
      · rw [if_neg hj, packages_of_ne (Ne.symm hj), add_zero, zero_add]
    · obtain ⟨hno, hquiet⟩ := quiet_pop hpipe hq
      refine ⟨onSlot_lost fun hj t rep heq => (hleads t rep heq).2.2 (fun hfails => hb ⟨hfails, c, ?_, hj.symm⟩) ?_, ?_⟩
      · rw [hpipe]
        rfl
      · rwa [hj] at hno
      · rwa [Quiet, onSlot_queued]
    · rw [onSlot_aborted (run_isSome hc (h.ok _) (hplain _) hr), hrun]

/-- A slot that the event poll has is live. -/
theorem live_of_polled (h : S.Inv) (hpolled : (S.slot k).polled = true) : (S.slot k).live := by
  rw [(h.ok k).polled] at hpolled
  refine ⟨fun hx => ?_, fun hx => ?_⟩ <;>
  · rw [hx] at hpolled
    cases hpolled

theorem accept_goes {answer : Accept} (h : S.Inv) (hrun : S.aborted = false)
    (hlt : (S.reportAccept k answer).allocId < 2 ^ 31) :
    S.Goes (.event k (.accept answer)) (S.reportAccept k answer) := by
  have hsame : ∀ r, S.Goes (.event k (.accept answer)) { S with reports := r } := by
    intro r
    exact ⟨⟨h.ok, h.waits, h.home, h.given, h.known, h.fresh, h.filling, h.nodup, h.first, h.reserved⟩,
      fun j => (add_zero _).symm, fun j _ hq => ⟨rfl, hq⟩, fun _ => hrun⟩
  cases answer with
  | failed => exact hsame S.reports
  | limit => exact hsame _
  | fd =>
    rw [reportAccept] at hlt ⊢
    rcases S.reserveId_cases with ⟨n, heq, hle, -⟩ | ⟨n, heq, hlt', hfree⟩
    · rw [heq]
      exact ⟨h.count hle, fun j => (add_zero _).symm, fun j _ hq => ⟨rfl, hq⟩, fun _ => hrun⟩
    · rw [heq] at hlt ⊢
      dsimp only at hlt ⊢
      rw [update_self] at hlt ⊢
      obtain ⟨u, hu, hfilled⟩ := Socket.newFd_accept_spec (S.slot k).handle
        (Socket.reserve_spec (idOf n) (h.ok (hashId (idOf n))) hfree) rfl
      rw [hu] at hlt ⊢
      dsimp only at hlt ⊢
      rw [update_idem]
      have hn : idOf n = n := idOf_of_lt hlt
      rw [hn] at hfree hfilled ⊢
      refine ⟨h.accept hlt' hfree hfilled.ok hfilled.waits hfilled.type hfilled.id, fun j => ?_,
        fun j _ hq => ⟨?_, hq⟩, fun _ => hrun⟩
      · show (update S.slot (hashId n) _ j).all + S.inFlight j = _ + 0
        rw [add_zero, apply_update Socket.all hfilled.all]
      · exact apply_update Socket.lost hfilled.lost j

theorem event_goes {e : Event β} (h : S.Inv) (hrun : S.aborted = false) (hpolled : (S.slot k).polled = true)
    (hstep : S.event k e = some T) (hlt : T.allocId < 2 ^ 31) : S.Goes (.event k e) T := by
  have hlive := live_of_polled h hpolled
  cases e with
  | connect ok =>
    rw [event] at hstep
    split at hstep
    · rename_i hc
      cases hstep
      refine onSlot_goes h hrun (fun _ => rfl) (fun t rep heq => ?_) fun _ => Socket.reportConnect_isSome hlive.2
      obtain ⟨hleads, hwaits, hlost⟩ := Socket.reportConnect_spec (h.ok k) hc heq
      refine ⟨hleads, hwaits, fun hb => hlost ?_⟩
      cases ok with
      | true => rfl
      | false => exact absurd ⟨rfl, rfl⟩ hb
    · cases hstep
  | accept answer =>
    rw [event] at hstep
    split at hstep
    · cases hstep
      exact accept_goes h hrun hlt
    · cases hstep
  | read answer =>
    rw [event] at hstep
    split at hstep
    · cases hstep
    · cases hstep
      refine onSlot_goes h hrun (fun _ => rfl) (fun t rep heq => ?_) fun _ => Socket.forwardMessageTcp_isSome hlive.2
      obtain ⟨hleads, hwaits, hlost⟩ := Socket.forwardMessageTcp_spec (h.ok k) (h.waits k) hlive.2 heq
      exact ⟨hleads, hwaits, fun hb => hlost (by_contra fun hno => hb ⟨rfl, hno⟩)⟩
  | write answers =>
    rw [event] at hstep
    split at hstep
    · cases hstep
    · rename_i hopen
      cases hstep
      refine onSlot_goes h hrun (fun _ => rfl) (fun t rep heq => ?_) fun hplain => ?_
      · obtain ⟨⟨u, c⟩, hu, heq'⟩ := Option.map_eq_some_iff.1 heq
        cases heq'
        obtain ⟨hleads, hinv, htype, hlost⟩ := Socket.sendBuffer_spec (h.ok k) hlive hu
        refine ⟨hleads, fun hc => ?_, fun hb => hlost fun a ha hea => hb ⟨rfl, a, ha, hea⟩⟩
        -- a socket that is connecting is not written to here
        cases c with
        | true =>
          rw [hinv rfl] at hc
          cases hc
        | false =>
          rw [htype rfl] at hc
          exact absurd (.inl hc) hopen
      · rw [Option.isSome_map]
        exact Socket.sendBuffer_isSome (h.ok k) hlive ((h.ok k).complete hplain hlive)

theorem inFlight_concat (c : Cmd β) (j : Nat) :
    inFlight { S with threads := S.threads ++ [c] } j = S.inFlight j + c.packages j := by
  show ((S.threads ++ [c] ++ S.pipe).map (Cmd.packages j)).sum = _
  rw [((queued_concat S c).map _).sum_eq, List.map_cons, List.sum_cons, add_comm]
  rfl

theorem quiet_concat {c : Cmd β} {j : Nat} (h : S.Quiet j) (hc : ¬ c.Shuts j) :
    Quiet { S with threads := S.threads ++ [c] } j := by
  intro d hd
  rcases List.mem_cons.1 ((queued_concat S c).mem_iff.1 hd) with rfl | hd
  · exact hc
  · exact h d hd

theorem opens_cmd (o : Opening) (id handle : Nat) : (o.cmd id handle : Cmd β).opens = true := by cases o <;> rfl

theorem id_cmd (o : Opening) (id handle : Nat) : (o.cmd id handle : Cmd β).id = id := by cases o <;> rfl

theorem reserve_goes {o : Opening} {handle : Nat} (h : S.Inv) (hrun : S.aborted = false)
    (hstep : S.perform (.reserve o handle) = some T) (hlt : T.allocId < 2 ^ 31) : S.Goes (.reserve o handle) T := by
  rw [perform] at hstep
  rcases S.reserveId_cases with ⟨n, heq, hle, -⟩ | ⟨n, heq, hlt', hfree⟩
  · rw [heq] at hstep
    cases hstep
    exact ⟨h.count hle, fun j => (add_zero _).symm, fun j _ hq => ⟨rfl, hq⟩, fun _ => hrun⟩
  · rw [heq] at hstep
    cases hstep
    have hn : idOf n = n := idOf_of_lt hlt
    rw [hn] at hfree ⊢
    refine ⟨h.reserve hlt' hfree (opens_cmd o n handle) (id_cmd o n handle), fun j => ?_, fun j _ hq => ⟨?_, ?_⟩,
      fun _ => hrun⟩
    · rw [show (Act.reserve o handle : Act β).handed j = 0 from rfl, add_zero]
      congr 1
      · show (update S.slot (hashId n) _ j).all = _
        exact apply_update Socket.all (by rfl) j
      · refine (inFlight_concat _ j).trans ?_
        rw [packages_of_opens (opens_cmd o n handle), add_zero]
        rfl
    · show (update S.slot (hashId n) _ j).lost = _
      exact apply_update Socket.lost (by rfl) j
    · exact quiet_concat hq (not_shuts_of_opens (opens_cmd o n handle) j)

theorem request_goes {c : Cmd β} (h : S.Inv) (hrun : S.aborted = false) (hstep : S.perform (.request c) = some T) :
    S.Goes (.request c) T := by
  unfold perform at hstep
  dsimp only at hstep
  split at hstep
  · rename_i hgiven
    -- the command is about to be written
    have hthreads : T = { S with threads := S.threads ++ [c] } → S.Goes (.request c) T := by
      rintro rfl
      refine ⟨h.request hgiven.2 hgiven.1, fun j => ?_, fun j hb hq => ⟨rfl, quiet_concat hq hb⟩, fun _ => hrun⟩
      rw [inFlight_concat, ← add_assoc]
      rfl
    cases c with
    | send id package =>
      dsimp only at hstep
      split at hstep
      · cases hstep
        have hleads := Socket.refuse_leads (h.ok (hashId id)) package
        refine ⟨h.move _ hleads.ok (h.waits _) rfl (.refl _), fun j => ?_, fun j _ hq => ⟨?_, hq⟩, fun _ => hrun⟩
        · show (update S.slot (hashId id) _ j).all + S.inFlight j = _ + (if hashId id = j then {package} else 0)
          by_cases hj : j = hashId id
          · rw [hj, update_self, if_pos rfl, hleads.all]
            exact add_right_comm _ _ _
          · rw [update_of_ne hj, if_neg (Ne.symm hj), add_zero]
        · show (update S.slot (hashId id) _ j).lost = _
          exact apply_update Socket.lost (by rfl) j
      · cases hstep
        exact hthreads rfl
    | start id handle => cases hstep; exact hthreads rfl
    | close id handle shutdown => cases hstep; exact hthreads rfl
    | bind id handle => cases hstep; exact hthreads rfl
    | listen id handle => cases hstep; exact hthreads rfl
    | connect id handle => cases hstep; exact hthreads rfl
  · cases hstep

theorem write_goes {i : Nat} (h : S.Inv) (hrun : S.aborted = false) (hstep : S.perform (.write i) = some T) :
    S.Goes (.write i) T := by
  rw [perform] at hstep
  split at hstep
  · cases hstep
  · rename_i c hc
    cases hstep
    obtain ⟨hi, rfl⟩ := List.getElem?_eq_some_iff.1 hc
    have hperm := (List.getElem_cons_eraseIdx_perm hi).symm
    have hall : (S.threads.eraseIdx i ++ (S.pipe ++ [S.threads[i]])).Perm S.queued := by
      refine List.Perm.trans ?_ (hperm.append_right S.pipe).symm
      rw [← List.append_assoc]
      exact List.perm_append_singleton _ _
    refine ⟨h.write hperm, fun j => ?_, fun j _ hq => ⟨rfl, fun d hd => hq d (hall.mem_iff.1 hd)⟩, fun _ => hrun⟩
    show (S.slot j).all + ((S.threads.eraseIdx i ++ (S.pipe ++ [S.threads[i]])).map (Cmd.packages j)).sum = _ + 0
    rw [(hall.map _).sum_eq, add_zero]
    rfl

theorem perform_goes (h : S.Inv) (hrun : S.aborted = false) (hstep : S.perform act = some T)
    (hlt : T.allocId < 2 ^ 31) : S.Goes act T := by
  cases act with
  | reserve o handle => exact reserve_goes h hrun hstep hlt
  | request c => exact request_goes h hrun hstep
  | write i => exact write_goes h hrun hstep
  | ctrl K =>
    rw [perform] at hstep
    split at hstep
    · cases hstep
    · rename_i c pipe hpipe
      cases hstep
      exact ctrl_goes h hrun hpipe
  | event k e =>
    rw [perform] at hstep
    split at hstep
    · rename_i hpolled
      exact event_goes h hrun hpolled hstep hlt
    · cases hstep

theorem step_goes (h : S.Inv) (hstep : S.step act = some T) (hlt : T.allocId < 2 ^ 31) : S.Goes act T := by
  rw [step] at hstep
  split at hstep
  · cases hstep
  · rename_i hrun
    exact perform_goes h (by simpa using hrun) hstep hlt

/-! ## Runs -/

theorem onSlot_allocId {r : Option (Socket β × Option (Report β))} : (S.onSlot k r).allocId = S.allocId := by
  cases r <;> rfl

theorem reserveId_le (S : Server β) : S.allocId ≤ S.reserveId.2.allocId := by
  rcases S.reserveId_cases with ⟨n, heq, hle, -⟩ | ⟨n, heq, hlt, -⟩
  · rw [heq]
    exact hle
  · rw [heq]
    exact hlt.le

theorem reportAccept_le (S : Server β) (k : Nat) (answer : Accept) : S.allocId ≤ (S.reportAccept k answer).allocId := by
  have hle := S.reserveId_le
  cases answer with
  | failed => exact Nat.le_refl _
  | limit => exact Nat.le_refl _
  | fd =>
    rw [reportAccept]
    split
    · rename_i heq
      rwa [heq] at hle
    · rename_i heq
      rw [heq] at hle
      split <;> exact hle

theorem step_le (h : S.step act = some T) : S.allocId ≤ T.allocId := by
  rw [step] at h
  split at h
  · cases h
  cases act with
  | reserve o handle =>
    have hle := S.reserveId_le
    rw [perform] at h
    split at h <;>
    · rename_i heq
      cases h
      rwa [heq] at hle
  | request c =>
    unfold perform at h
    dsimp only at h
    split at h
    · split at h
      · split at h <;> cases h <;> exact Nat.le_refl _
      · cases h
        exact Nat.le_refl _
    · cases h
  | write i =>
    rw [perform] at h
    split at h
    · cases h
    · cases h
      exact Nat.le_refl _
  | ctrl K =>
    rw [perform] at h
    split at h
    · cases h
    · cases h
      rw [onSlot_allocId]
  | event k e =>
    rw [perform] at h
    split at h
    · cases e <;> rw [event] at h <;> split at h <;> cases h
      · rw [onSlot_allocId]
      · exact reportAccept_le S k _
      · rw [onSlot_allocId]
      · rw [onSlot_allocId]
    · cases h

theorem run_le {es : List (Act β)} (h : run step S es = some T) : S.allocId ≤ T.allocId :=
  run_inv (I := fun U => S.allocId ≤ U.allocId) (fun hle hstep => hle.trans (step_le hstep)) (Nat.le_refl _) h

end Server

def handed (k : Nat) (es : List (Act β)) : Multiset (Package β) := (es.map (Act.handed k)).sum

namespace Server

theorem run_goes {es : List (Act β)} (h : S.Inv) (hrun : run step S es = some T) (hlt : T.allocId < 2 ^ 31) :
    T.Inv ∧ (∀ k, (T.slot k).all + T.inFlight k = (S.slot k).all + S.inFlight k + handed k es) ∧
      ∀ k, Along step (fun S e => ¬ e.Breaks S k) S es → S.Quiet k → (T.slot k).lost = (S.slot k).lost := by
  induction es generalizing S with
  | nil =>
    cases hrun
    exact ⟨h, fun k => (add_zero _).symm, fun k _ _ => rfl⟩
  | cons e es ih =>
    obtain ⟨U, hU, hrest⟩ := run_cons.1 hrun
    have hgoes := step_goes h hU (lt_of_le_of_lt (run_le hrest) hlt)
    obtain ⟨hinv, hall, hlost⟩ := ih hgoes.inv hrest
    refine ⟨hinv, fun k => ?_, fun k hb hq => ?_⟩
    · rw [hall, hgoes.all, handed, handed, List.map_cons, List.sum_cons, add_assoc]
    · obtain ⟨hno, hrest⟩ := hb U hU
      obtain ⟨hsame, hquiet⟩ := hgoes.lost k hno hq
      rw [hlost k hrest hquiet, hsame]

/-- No user object is on its way with low priority, or in a slot. -/
def Plain (S : Server β) : Prop :=
  ∀ k, ∀ p ∈ (S.slot k).all + S.inFlight k, p.priority = .low → p.userobject = false

theorem Goes.plain (h : S.Goes act T) (hS : S.Plain)
    (hact : ∀ k, ∀ p ∈ act.handed k, p.priority = .low → p.userobject = false) : T.Plain := by
  intro k p hp
  rw [h.all, Multiset.mem_add] at hp
  exact hp.elim (hS k p) (hact k p)

theorem run_plain {es : List (Act β)} (h : S.Inv) (hS : S.Plain) (ha : S.aborted = false)
    (hes : ∀ e ∈ es, ∀ k, ∀ p ∈ e.handed k, p.priority = .low → p.userobject = false)
    (hrun : run step S es = some T) (hlt : T.allocId < 2 ^ 31) : T.Plain ∧ T.aborted = false := by
  induction es generalizing S with
  | nil =>
    cases hrun
    exact ⟨hS, ha⟩
  | cons e es ih =>
    obtain ⟨U, hU, hrest⟩ := run_cons.1 hrun
    have hgoes := step_goes h hU (lt_of_le_of_lt (run_le hrest) hlt)
    have hslots : ∀ k, (S.slot k).Plain := fun k p hp => hS k p (Multiset.mem_add.2 (.inl hp))
    exact ih hgoes.inv (hgoes.plain hS (hes e List.mem_cons_self)) (hgoes.safe hslots)
      (fun e' he' => hes e' (List.mem_cons_of_mem _ he')) hrest

theorem mem_handed {p : Package β} (h : p ∈ act.handed k) : ∃ id, act = .request (.send id p) := by
  cases act with
  | request c =>
    cases c with
    | send id package =>
      have hmem : p ∈ if hashId id = k then ({package} : Multiset (Package β)) else 0 := h
      split at hmem
      · rw [Multiset.mem_singleton.1 hmem]
        exact ⟨id, rfl⟩
      · exact absurd hmem (Multiset.notMem_zero p)
    | _ => exact absurd h (Multiset.notMem_zero p)
  | _ => exact absurd h (Multiset.notMem_zero p)

variable {es : List (Act β)}

/-- Of a package of low priority one byte is written at once; another one of low priority waits behind one of high
priority. -/
def busySocket : List (Act Nat) :=
  let answers (answer : Answer) : Act Nat := .ctrl ⟨.connected, true, answer, []⟩
  let send (address : Nat) (bytes : List Nat) (p : Priority) : Act Nat := .request (.send 1 ⟨address, bytes, p, false⟩)
  [.reserve .connect 8, .write 0, answers .again,
    send 0 [1, 2, 3] .low, .write 0, answers (.took 1),
    send 1 [4, 5] .low, send 2 [6] .high, .write 0, answers .again, .write 0, answers .again,
    .event 1 (.write [.took 2, .intr, .took 1])]

theorem run_busy : ∃ S, run step create busySocket = some S ∧ S.allocId = 1 ∧ (S.slot 1).type = .connected ∧
    (S.slot 1).bound = false ∧ (S.slot 1).queue.length = 1 ∧ (S.slot 1).wire = [1, 2, 3, 6] := by
  have hends : (run step create busySocket).map (fun S => (S.allocId, (S.slot 1).type, (S.slot 1).bound,
      (S.slot 1).queue.length, (S.slot 1).wire)) = some (1, .connected, false, 1, [1, 2, 3, 6]) := by decide +kernel
  obtain ⟨S, hrun, hS⟩ := Option.map_eq_some_iff.1 hends
  simp only [Prod.mk.injEq] at hS
  exact ⟨S, hrun, hS⟩

theorem run_create_plain (hrun : run step create es = some S) (hlt : S.allocId < 2 ^ 31)
    (hes : ∀ id p, .request (.send id p) ∈ es → p.priority = .low → p.userobject = false) :
    S.Plain ∧ S.aborted = false := by
  have hplain : Plain (create : Server β) := fun k p hp => absurd hp (Multiset.notMem_zero p)
  refine run_plain inv_create hplain rfl (fun e he k p hp => ?_) hrun hlt
  obtain ⟨id, rfl⟩ := mem_handed hp
  exact hes id p he

/-- No assertion fails, as long as the counter of ids does not come round and no user object is sent with low
priority. -/
theorem run_asserts (hrun : run step create es = some S) (hlt : S.allocId < 2 ^ 31)
    (hes : ∀ id p, .request (.send id p) ∈ es → p.priority = .low → p.userobject = false) : S.aborted = false :=
  (run_create_plain hrun hlt hes).2

theorem run_asserts_busySocket : ∃ S, run step create busySocket = some S ∧ S.aborted = false := by
  obtain ⟨S, hrun, hid, -⟩ := run_busy
  refine ⟨S, hrun, run_asserts hrun (by rw [hid]; decide) fun id p hp _ => ?_⟩
  simp [busySocket] at hp
  rcases hp with ⟨-, rfl⟩ | ⟨-, rfl⟩ | ⟨-, rfl⟩ <;> rfl

/-- What the kernel took of a socket and what is still in its lists are whole packages, one after the other; only the
first one in the lists may be written in part. The packages of one priority are in the order in which the socket thread
took them. -/
theorem run_stream (hrun : run step create es = some S) (hlt : S.allocId < 2 ^ 31) (hl : (S.slot k).live) :
    ∃ done : List (Package β),
      (S.slot k).wire = done.flatMap Package.bytes ++ begun Package.bytes (S.slot k).queue ∧
      (S.slot k).wire ++ pending Package.bytes (S.slot k).queue =
        (done ++ items (S.slot k).queue).flatMap Package.bytes ∧
      SameLanes Package.priority (S.slot k).taken (done ++ items (S.slot k).queue) ∧
      (S.slot k).wbSize = (pending Package.bytes (S.slot k).queue).length := by
  obtain ⟨hinv, -, -⟩ := run_goes inv_create hrun hlt
  have hflow := (hinv.ok k).flow hl
  obtain ⟨done, hw, hlanes⟩ := hflow.written
  exact ⟨done, hw.wire_eq, hw.total, hlanes, hflow.size⟩

theorem run_stream_busySocket : ∃ S, run step create busySocket = some S ∧ (S.slot 1).wire = [1, 2, 3, 6] ∧
    ∃ done, (S.slot 1).wire ++ pending Package.bytes (S.slot 1).queue =
      (done ++ items (S.slot 1).queue).flatMap Package.bytes := by
  obtain ⟨S, hrun, hid, htype, -, -, hwire⟩ := run_busy
  have hl : (S.slot 1).live := by rw [Socket.live, htype]; decide
  obtain ⟨done, -, htotal, -⟩ := run_stream hrun (by rw [hid]; decide) hl
  exact ⟨S, hrun, hwire, done, htotal⟩

/-- Every package that was handed over for a slot is in one place: it is on its way to the socket thread or in the
lists, or it was freed once, when it was written whole, turned away, or lost with the socket. None is lost unless the
kernel reports an error for the socket, the other side closes, or a service asks for a shutdown. -/
theorem run_kept (hrun : run step create es = some S) (hlt : S.allocId < 2 ^ 31) (k : Nat) :
    handed k es = S.inFlight k + items (S.slot k).queue + (S.slot k).done + (S.slot k).refused + (S.slot k).lost ∧
      (Along step (fun S e => ¬ e.Breaks S k) create es → (S.slot k).lost = []) := by
  obtain ⟨-, hall, hlost⟩ := run_goes inv_create hrun hlt
  have hnone : (Server.slot (create : Server β) k).all + inFlight create k = 0 := rfl
  have hk := hall k
  rw [hnone, zero_add, Socket.all] at hk
  refine ⟨?_, fun hb => hlost k hb fun c hc => (List.not_mem_nil hc).elim⟩
  rw [← hk]
  abel

theorem run_kept_busySocket : ∃ S, run step create busySocket = some S ∧
    handed 1 busySocket = S.inFlight 1 + items (S.slot 1).queue + (S.slot 1).done + (S.slot 1).refused +
      (S.slot 1).lost ∧ (S.slot 1).lost = [] := by
  obtain ⟨S, hrun, hid, -⟩ := run_busy
  obtain ⟨hall, hlost⟩ := run_kept hrun (by rw [hid]; decide) 1
  refine ⟨S, hrun, hall, hlost (along_of_forall ?_)⟩
  simp [busySocket, Act.Breaks, Cmd.Shuts, Kernel.Fails]

/-- A socket that has something to write, or that is to be closed once it has written everything, waits for the kernel
to take more; but for file descriptors that came with `bind_socket`. -/
theorem run_writing (hrun : run step create es = some S) (hlt : S.allocId < 2 ^ 31) (hb : (S.slot k).bound = false)
    (hq : (S.slot k).queue ≠ [] ∨ (S.slot k).type = .halfclose) :
    (S.slot k).polled = true ∧ (S.slot k).writing = true := by
  obtain ⟨hinv, -, -⟩ := run_goes inv_create hrun hlt
  have hok := hinv.ok k
  refine ⟨?_, hok.interest hb hq⟩
  rw [hok.polled]
  rcases hq with hq | hq
  · refine polls_of_carries (by_contra fun hc => hq (hok.idle ?_))
    simpa using hc
  · rw [hq]
    rfl

theorem run_writing_busySocket : ∃ S, run step create busySocket = some S ∧ (S.slot 1).polled = true ∧
    (S.slot 1).writing = true := by
  obtain ⟨S, hrun, hid, -, hbound, hlength, -⟩ := run_busy
  have hq : (S.slot 1).queue ≠ [] := List.ne_nil_of_length_pos (by rw [hlength]; decide)
  exact ⟨S, hrun, run_writing hrun (by rw [hid]; decide) hbound (.inl hq)⟩

/-- A socket that is half closed is closed as soon as the kernel takes what is left: that is reported, and nothing is
lost. -/
theorem run_closes {answers : List Answer} (hrun : run step create es = some S) (hlt : S.allocId < 2 ^ 31)
    (hes : ∀ id p, .request (.send id p) ∈ es → p.priority = .low → p.userobject = false)
    (hhalf : (S.slot k).type = .halfclose) (hb : (S.slot k).bound = false) (hroom : Roomy answers (S.slot k).queue) :
    ∃ n ≤ 2, ∃ T, run step S (List.replicate n (.event k (.write answers))) = some T ∧ (T.slot k).type = .invalid ∧
      (T.slot k).lost = (S.slot k).lost ∧ T.reports = S.reports ++ [.close (S.slot k).id (S.slot k).handle] := by
  obtain ⟨hinv, -, -⟩ := run_goes inv_create hrun hlt
  obtain ⟨hplain, hgoes⟩ := run_create_plain hrun hlt hes
  exact halfclose_ends hinv hgoes (fun p hp => hplain k p (Multiset.mem_add.2 (.inl hp))) hhalf hb hroom

/-- The socket is closed while three packages are in its lists. -/
def closedSocket : List (Act Nat) :=
  busySocket.dropLast ++ [.request (.close 1 8 false), .write 0, .ctrl ⟨.connected, true, .again, []⟩]

theorem run_closed : ∃ S, run step create closedSocket = some S ∧ S.allocId = 1 ∧ (S.slot 1).type = .halfclose ∧
    (S.slot 1).bound = false ∧ (S.slot 1).queue.map WriteBuffer.sz = [2, 1, 2] := by
  have hends : (run step create closedSocket).map (fun S => (S.allocId, (S.slot 1).type, (S.slot 1).bound,
      (S.slot 1).queue.map WriteBuffer.sz)) = some (1, .halfclose, false, [2, 1, 2]) := by decide +kernel
  obtain ⟨S, hrun, hS⟩ := Option.map_eq_some_iff.1 hends
  simp only [Prod.mk.injEq] at hS
  exact ⟨S, hrun, hS⟩

theorem run_closes_closedSocket : ∃ S, run step create closedSocket = some S ∧
    ∃ n ≤ 2, ∃ T, run step S (List.replicate n (.event 1 (.write (List.replicate 3 (.took 8))))) = some T ∧
      (T.slot 1).type = .invalid := by
  obtain ⟨S, hrun, hid, htype, hbound, hsz⟩ := run_closed
  have hroom : Roomy (List.replicate 3 (.took 8)) (S.slot 1).queue := by
    refine ⟨?_, fun x hx => ⟨8, List.eq_of_mem_replicate hx, fun wb hwb => ?_⟩⟩
    · rw [← List.length_map (f := WriteBuffer.sz), hsz]
      decide
    · have hmem : wb.sz ∈ [2, 1, 2] := by
        rw [← hsz]
        exact List.mem_map_of_mem hwb
      have hle : ∀ n ∈ [2, 1, 2], n ≤ 8 := by decide
      exact hle _ hmem
  obtain ⟨n, hn, T, hT, hinvalid, -⟩ := run_closes hrun (by rw [hid]; decide) (fun id p hp _ => by
    simp [closedSocket, busySocket] at hp
    rcases hp with ⟨-, rfl⟩ | ⟨-, rfl⟩ | ⟨-, rfl⟩ <;> rfl) htype hbound hroom
  exact ⟨S, hrun, n, hn, T, hT, hinvalid⟩

/-- The ids of the slots in use are different, and a new one is not among them; there is none only if all slots are in
use. -/
theorem run_ids (hrun : run step create es = some S) (hlt : S.allocId < 2 ^ 31) :
    (∀ j k, (S.slot j).type ≠ .invalid → (S.slot k).type ≠ .invalid → (S.slot j).id = (S.slot k).id → j = k) ∧
    (S.reserveId.1 = none ↔ ∀ k < MAX_SOCKET, (S.slot k).type ≠ .invalid) ∧
    ∀ id, S.reserveId.1 = some id → (S.slot (hashId id)).type = .invalid ∧ hashId id < MAX_SOCKET := by
  obtain ⟨hinv, -, -⟩ := run_goes inv_create hrun hlt
  have hslot : ∀ id, hashId id < MAX_SOCKET := fun id => Nat.mod_lt id (by decide)
  refine ⟨fun j k hj hk hid => ?_, ?_, fun id hid => ⟨?_, hslot id⟩⟩
  · rw [← (hinv.home j hj).1, ← (hinv.home k hk).1, hid]
  · rcases S.reserveId_cases with ⟨n, heq, -, hall⟩ | ⟨n, heq, -, hfree⟩
    · rw [heq]
      exact iff_of_true rfl hall
    · rw [heq]
      exact iff_of_false (by cases ·) fun hall => hall _ (hslot _) hfree
  · rcases S.reserveId_cases with ⟨n, heq, -, hall⟩ | ⟨n, heq, -, hfree⟩
    · rw [heq] at hid
      cases hid
    · rw [heq] at hid
      cases hid
      exact hfree

theorem run_ids_busySocket : ∃ S, run step create busySocket = some S ∧
    (S.reserveId.1 = none ↔ ∀ k < MAX_SOCKET, (S.slot k).type ≠ .invalid) := by
  obtain ⟨S, hrun, hid, -⟩ := run_busy
  exact ⟨S, hrun, (run_ids hrun (by rw [hid]; decide)).2.1⟩

end Server

end RoundGame.Skynet.SocketServer
