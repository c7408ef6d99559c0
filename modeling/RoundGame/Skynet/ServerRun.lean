import RoundGame.Skynet.ServerStep

/-!
# Runs of the server

What holds in every state that the threads can reach, whatever they do and in whatever order, as long as the handles do
not come round.

- No assertion fails, and no context or queue is used after it was freed (`run_safe`).
- A service handles one message at a time (`run_exclusive`).
- A message that was pushed was taken, in the order of the queue, or was dropped after its service was deleted, or is
  still in the queue (`run_messages`).
- A queue with messages is in the global queue or in the hands of a thread (`run_woken`).
- When all threads are at rest, no message is left, and what was retired is freed (`run_rest`).
-/

namespace RoundGame.Skynet

open Function Threads StepSys

variable {δ : Type}

namespace Server

variable {s s' : Server δ} {l l' : List Nat} {t c : Nat} {f : Frame δ} {st : List (Frame δ)}

/-! ## One step -/

theorem later_retire (h : Inv s l) (handle : Nat) : Later s { s with handles := (s.handles.retire handle).2 } :=
  ⟨Nat.le_refl _, fun _ _ => id, fun _ _ => id, fun c _ hreg => ((registered_retire h.table handle c).1 hreg).1⟩

/-- Whether the frame takes a queue from the global queue next. -/
def takesQueue : Frame δ → Bool
  | .top none | .swap _ _ => true
  | _ => false

theorem go_inv (h : Inv s l) (w : Int) (hst : s.thread[t]? = some (f :: st)) :
    Leads s l t st (takesQueue f) (s.go w f) := by
  have hsame : ∀ {g : Frame δ}, s.thread[t]? = some (g :: st) → s.go w g = ([g], s) →
      Leads s l t st false (s.go w g) := by
    intro g hst hgo
    rw [hgo]
    refine ⟨l, .refl, h.reframe hst ?_ fun c => by simp⟩
    intro x hx
    rw [List.mem_singleton.1 hx]
    exact h.frameOk hst
  cases f with
  | env => exact hsame hst rfl
  | top q =>
    cases q with
    | none => exact inv_top_none h hst
    | some q => exact inv_top_some h hst
  | pop => exact inv_pop h hst
  | length => exact inv_length h hst
  | trigger => exact inv_trigger h hst
  | callback => exact inv_callback h hst
  | swap => exact inv_swap h hst
  | pushBack => exact inv_pushBack h hst
  | release => exact inv_release h hst
  | delete => exact inv_delete h hst
  | mqRelease => exact inv_mqRelease h hst
  | drop => exact inv_drop h hst
  | send => exact inv_send h hst
  | init => exact hsame hst rfl
  | initOk => exact inv_initOk h hst
  | setInit => exact inv_setInit h hst
  | launch => exact inv_launch h hst
  | initFail => exact inv_initFail h hst
  | failRetire => exact inv_failRetire h hst

/-- The service that sets its callback. -/
theorem inv_setCallback (h : Inv s l) (hst : s.thread[t]? = some (f :: st)) (c : Nat) :
    Inv { s.setContext c { (s.service c).ctx with cb := true } with thread := s.thread.set t ([f] ++ st) } l := by
  have hone := oneService_set (d := c) h (v := { s.service c with
    ctx := { (s.service c).ctx with cb := true } }) rfl id id Or.inl
  rw [setContext]
  refine h.next hst hone h.reps (fun c hc => Or.inl hc) ?_ (fun d _ => by simp) ?_
  · intro g hg
    rw [List.mem_singleton.1 hg]
    exact hone.later.frameOk (h.frameOk hst)
  · intro P R D hacc
    rw [setService_self]
    exact hacc.congr.cast (by simp) (by simp) (by simp)

/-- Before a service is created there is room for its handle. -/
def RoomFor (s : Server δ) (e : Nat × Act δ) : Prop :=
  match e.2 with
  | .new => s.handles.Room
  | _ => True

instance (s : Server δ) : ∀ e, Decidable (s.RoomFor e)
  | (_, .new) => inferInstanceAs (Decidable s.handles.Room)
  | (_, .go) | (_, .initialized _) | (_, .send _ _) | (_, .exit _) | (_, .callback) => isTrue trivial

/-- Whether the step takes a queue from the global queue, or finds it empty. -/
def takes (s : Server δ) (e : Nat × Act δ) : Bool :=
  match s.thread[e.1]?, e.2 with
  | some (f :: _), .go => takesQueue f
  | _, _ => false

/-- Every step of every thread keeps the invariant. -/
theorem step_leads {e : Nat × Act δ} (h : Inv s l) (hroom : s.RoomFor e) (hstep : s.step e = some s') :
    ∃ l', Served (s.takes e) l l' ∧ Inv s' l' := by
  obtain ⟨t, a⟩ := e
  rw [step] at hstep
  split at hstep
  · rename_i f st hst
    obtain ⟨r, hact, rfl⟩ := Option.map_eq_some_iff.1 hstep
    rw [takes, hst]
    cases a with
    | go =>
      cases hact
      exact go_inv h _ hst
    | initialized ok =>
      cases f with
      | init c =>
        cases hact
        obtain ⟨hc, _⟩ := h.frameOk hst
        refine ⟨l, .refl, h.reframe hst ?_ ?_⟩
        · intro g hg
          rw [List.mem_singleton.1 hg]
          cases ok <;> exact ⟨hc, trivial⟩
        · intro d
          cases ok <;> simp [Frame.holds, Frame.refs, Frame.deletes]
      | _ => cases hact
    | send handle msg =>
      rw [act] at hact
      split at hact
      · cases hact
        exact inv_grab h hst handle msg
      · cases hact
    | exit handle =>
      rw [act] at hact
      split at hact
      · cases hact
        refine ⟨l, .refl, inv_retire h hst handle (fun g hg => ?_) fun d => by simp⟩
        rw [List.mem_singleton.1 hg]
        exact (later_retire h handle).frameOk (h.frameOk hst)
      · cases hact
    | new =>
      rw [act] at hact
      split at hact
      · cases hact
        exact ⟨l, .refl, inv_new h hst hroom⟩
      · cases hact
    | callback =>
      cases f with
      | init c =>
        cases hact
        exact ⟨l, .refl, inv_setCallback h hst c⟩
      | callback q c i n msg =>
        cases hact
        exact ⟨l, .refl, inv_setCallback h hst c⟩
      | _ => cases hact
  · cases hstep

theorem step_inv {e : Nat × Act δ} (h : ∃ l, Inv s l) (hroom : s.RoomFor e) (hstep : s.step e = some s') :
    ∃ l', Inv s' l' := by
  obtain ⟨l, h⟩ := h
  obtain ⟨l', _, h'⟩ := step_leads h hroom hstep
  exact ⟨l', h'⟩

/-! ## All steps -/

theorem start_inv (harbor : Nat) (worker : List Bool) (weight : Nat → Int) :
    Inv (start harbor worker weight : Server δ) [] := by
  have hnone : ∀ h c, (HandleStorage.init harbor : HandleStorage Nat).grab h ≠ some c := by
    intro h c hg
    obtain ⟨i, hi⟩ := (HandleStorage.grab_eq_some_iff (HandleStorage.wf_init harbor)).1 hg
    have hempty := List.eq_of_mem_replicate (List.mem_of_getElem? hi)
    cases hempty
  refine ⟨rfl, GlobalQueue.reps_init, HandleStorage.wf_init harbor, Nat.one_pos, nofun, nofun, ?_, nofun, ?_, nofun,
    nofun⟩
  · intro st hst f hf
    obtain ⟨b, _, rfl⟩ := List.mem_map.1 hst
    rw [List.mem_singleton.1 hf]
    cases b <;> exact ⟨trivial, trivial⟩
  · exact fun h c hg => absurd hg (hnone h c)

variable {harbor : Nat} {worker : List Bool} {weight : Nat → Int} {es : List (Nat × Act δ)}

theorem run_inv (hroom : Along step RoomFor (start harbor worker weight) es)
    (hrun : run step (start harbor worker weight) es = some s) : ∃ l, Inv s l :=
  along_inv (I := fun s => ∃ l, Inv s l) step_inv ⟨[], start_inv harbor worker weight⟩ hroom hrun

/-- A message to the first service of harbor 1. -/
def hello (n : Nat) : Message Nat := ⟨0, 0, 10, some n⟩

/-- A thread creates a service and sends it a message, which a worker takes; a second message comes meanwhile. -/
def busyRun : List (Nat × Act Nat) :=
  [(0, .new), (0, .callback), (0, .initialized true), (0, .go), (0, .go), (0, .go),
    (0, .send 0x1000001 (hello 1)), (0, .go), (0, .go), (1, .go), (1, .go), (1, .go), (1, .go),
    (0, .send 0x1000001 (hello 2)), (0, .go), (0, .go)]

/-- The worker goes on to the second message. The service is retired before the worker is done with it. -/
def calmRun : List (Nat × Act Nat) :=
  busyRun ++ [(1, .go), (1, .go), (1, .go), (1, .go), (1, .go), (0, .exit 0x1000001), (0, .go), (1, .go), (1, .go),
    (1, .go), (1, .go), (1, .go), (1, .go), (1, .go), (1, .go)]

/-- Whatever the threads do, no assertion fails, and nothing is used after it was freed. -/
theorem run_safe (hroom : Along step RoomFor (start harbor worker weight) es)
    (hrun : run step (start harbor worker weight) es = some s) : s.crash = false := by
  obtain ⟨l, h⟩ := run_inv hroom hrun
  exact h.crash

theorem run_safe_calmRun : ∃ s, run step (start 1 [false, true] fun _ => -1) calmRun = some s ∧ s.crash = false := by
  have hrun : (run step (start 1 [false, true] fun _ => -1) calmRun).isSome := by decide +kernel
  obtain ⟨s, hs⟩ := Option.isSome_iff_exists.1 hrun
  exact ⟨s, hs, run_safe (by decide +kernel) hs⟩

/-- The service whose messages a frame is dispatching. -/
def dispatches : Frame δ → Option Nat
  | .pop q .. | .length q .. | .trigger q .. | .callback q .. | .swap q _ => some q
  | _ => none

theorem holds_of_dispatches (h : dispatches f = some c) : f.holds c = 1 := by
  cases f with
  | pop | length | trigger | callback | swap =>
    cases h
    exact if_pos rfl
  | _ => cases h

/-- The messages of a service are dispatched by one thread at a time, once in its stack, and the queue of the service is
not in the global queue meanwhile. -/
theorem run_exclusive (hroom : Along step RoomFor (start harbor worker weight) es)
    (hrun : run step (start harbor worker weight) es = some s) {t' i j : Nat} {st st' : List (Frame δ)} {f g : Frame δ}
    (hst : s.thread[t]? = some st) (hf : st[i]? = some f) (hfc : dispatches f = some c)
    (hst' : s.thread[t']? = some st') (hg : st'[j]? = some g) (hgc : dispatches g = some c) :
    t = t' ∧ i = j ∧ ∃ l, s.global.Reps l ∧ c ∉ l := by
  obtain ⟨l, h⟩ := run_inv hroom hrun
  have hfh := holds_of_dispatches hfc
  have hmem := List.mem_of_getElem? hst
  have hc : c < s.count := by
    have hbelow := (h.frames st hmem f (List.mem_of_getElem? hf)).1
    by_contra hge
    have hzero := (hbelow.zero (Nat.le_of_not_lt hge)).1
    omega
  have hone := (h.accounts c hc).places_le_one
  have hle := le_tally (w := Frame.holds c) hmem (List.mem_of_getElem? hf)
  obtain ⟨ht, hi⟩ := unique_of_tally (w := Frame.holds c) (by omega) hst hf hst' hg (by omega)
    (by rw [holds_of_dispatches hgc]; exact Nat.one_pos)
  refine ⟨ht, hi, l, h.reps, fun hl => ?_⟩
  have hpos := List.count_pos_iff.2 hl
  omega

theorem run_exclusive_busyRun : ∃ s, run step (start 1 [false, true] fun _ => -1) busyRun = some s ∧
    s.thread[1]? = some [.callback 0 0 0 1 (hello 1)] ∧ (1 = 1 ∧ 0 = 0 ∧ ∃ l, s.global.Reps l ∧ 0 ∉ l) := by
  have hthread : (run step (start 1 [false, true] fun _ => -1) busyRun).map (·.thread) =
      some [[.env], [.callback 0 0 0 1 (hello 1)]] := by decide +kernel
  obtain ⟨s, hs, hst⟩ := Option.map_eq_some_iff.1 hthread
  have hone : s.thread[1]? = some [.callback 0 0 0 1 (hello 1)] := by rw [hst]; rfl
  exact ⟨s, hs, hone, run_exclusive (by decide +kernel) hs hone rfl rfl hone rfl rfl⟩

/-- A queue with messages is not forgotten: it is in the global queue, or in the hands of a thread. -/
theorem run_woken (hroom : Along step RoomFor (start harbor worker weight) es)
    (hrun : run step (start harbor worker weight) es = some s) (hc : c < s.count)
    (hmsg : (s.service c).queue.contents ≠ []) :
    ∃ l, s.global.Reps l ∧ (c ∈ l ∨ ∃ st ∈ s.thread, ∃ f ∈ st, 0 < f.holds c) := by
  obtain ⟨l, h⟩ := run_inv hroom hrun
  have hacc := h.accounts c hc
  refine ⟨l, h.reps, ?_⟩
  have hglobal : (s.service c).queue.in_global = true := by
    rw [← Bool.not_eq_false]
    exact fun hno => hmsg (hacc.idle hno)
  have hfreed : (s.service c).freed = false := by
    rw [← Bool.not_eq_true]
    exact fun hno => hmsg (hacc.freed hno).2
  have hplace := hacc.place
  rw [if_pos ⟨hfreed, Or.inr hglobal⟩] at hplace
  by_cases hl : c ∈ l
  · exact Or.inl hl
  · rw [List.count_eq_zero.2 hl] at hplace
    exact Or.inr (exists_of_tally_pos (w := Frame.holds c) (by omega))

theorem run_woken_busyRun : ∃ s, run step (start 1 [false, true] fun _ => -1) busyRun = some s ∧
    ∃ l, s.global.Reps l ∧ (0 ∈ l ∨ ∃ st ∈ s.thread, ∃ f ∈ st, 0 < f.holds 0) := by
  have hmsg : (run step (start 1 [false, true] fun _ => -1) busyRun).map
      (fun s => (s.count, (s.service 0).queue.contents)) = some (1, [hello 2]) := by decide +kernel
  obtain ⟨s, hs, heq⟩ := Option.map_eq_some_iff.1 hmsg
  obtain ⟨hc, hq⟩ := Prod.mk.inj heq
  exact ⟨s, hs, run_woken (by decide +kernel) hs (by rw [hc]; decide) (by rw [hq]; decide)⟩

/-- A thread that has nothing to do. -/
def AtRest (st : List (Frame δ)) : Prop := st = [.env] ∨ st = [.top none]

/-- When all threads are at rest and the global queue is empty, every message was taken or dropped, a service that was
retired is freed with its queue, and the only reference to another one is that of the table. -/
theorem run_rest (hroom : Along step RoomFor (start harbor worker weight) es)
    (hrun : run step (start harbor worker weight) es = some s) (hrest : ∀ st ∈ s.thread, AtRest st)
    (hglobal : s.global.head = none) (hc : c < s.count) :
    (s.service c).queue.contents = [] ∧
      (¬ s.Registered c → (s.service c).ctx.freed = true ∧ (s.service c).freed = true) ∧
      (s.Registered c → (s.service c).ctx.freed = false ∧ (s.service c).ctx.ref = 1) := by
  obtain ⟨l, h⟩ := run_inv hroom hrun
  have hacc := h.accounts c hc
  have hl : l = [] := by
    rw [h.reps.head] at hglobal
    exact List.head?_eq_none_iff.1 hglobal
  have hzero : ∀ w : Frame δ → Nat, w .env = 0 → w (.top none) = 0 → tally w s.thread = 0 := by
    intro w henv htop
    refine tally_eq_zero fun st hst f hf => ?_
    rcases hrest st hst with rfl | rfl
    · rw [List.mem_singleton.1 hf]
      exact henv
    · rw [List.mem_singleton.1 hf]
      exact htop
  rw [hl, hzero _ rfl rfl, hzero _ rfl rfl, hzero _ rfl rfl] at hacc
  have hnowhere : ¬ ((s.service c).freed = false ∧
      ((s.service c).queue.release = true ∨ (s.service c).queue.in_global = true)) := by
    intro hcond
    have hplace := hacc.place
    rw [if_pos hcond] at hplace
    cases hplace
  refine ⟨?_, ?_, fun hreg => ?_⟩
  · by_contra hmsg
    obtain ⟨l', hreps, hwhere⟩ := run_woken hroom hrun hc hmsg
    rcases hwhere with hmem | ⟨st, hst, f, hf, hpos⟩
    · have hhead := hreps.head
      rw [hglobal, eq_comm, List.head?_eq_none_iff] at hhead
      rw [hhead] at hmem
      cases hmem
    · rcases hrest st hst with rfl | rfl
      · rw [List.mem_singleton.1 hf] at hpos
        cases hpos
      · rw [List.mem_singleton.1 hf] at hpos
        cases hpos
  · intro hunreg
    have hctx : (s.service c).ctx.freed = true := by
      rw [← Bool.not_eq_false]
      intro hno
      have hdel := hacc.deleting
      rw [if_pos ⟨hno, hacc.ref_unreg hno hunreg⟩] at hdel
      cases hdel
    refine ⟨hctx, ?_⟩
    rw [← Bool.not_eq_false]
    intro hno
    exact hnowhere ⟨hno, Or.inl (hacc.release.trans hctx)⟩
  · obtain ⟨halive, _, href⟩ := hacc.alive_of_reg hreg
    exact ⟨halive, href⟩

theorem run_rest_calmRun : ∃ s, run step (start 1 [false, true] fun _ => -1) calmRun = some s ∧
    (s.service 0).queue.contents = [] ∧
      (¬ s.Registered 0 → (s.service 0).ctx.freed = true ∧ (s.service 0).freed = true) ∧
      (s.Registered 0 → (s.service 0).ctx.freed = false ∧ (s.service 0).ctx.ref = 1) := by
  have hend : (run step (start 1 [false, true] fun _ => -1) calmRun).map (fun s => (s.thread, s.global.head, s.count)) =
      some ([[.env], [.top none]], none, 1) := by decide +kernel
  obtain ⟨s, hs, heq⟩ := Option.map_eq_some_iff.1 hend
  obtain ⟨hthread, hrest⟩ := Prod.mk.inj heq
  obtain ⟨hhead, hc⟩ := Prod.mk.inj hrest
  refine ⟨s, hs, run_rest (by decide +kernel) hs ?_ hhead (by rw [hc]; decide)⟩
  rw [hthread]
  intro st hst
  rcases List.mem_pair.1 hst with rfl | rfl
  · exact Or.inl rfl
  · exact Or.inr rfl

/-! ## The order of the global queue -/

/-- How often a run takes a queue from the global queue. -/
def turns : Server δ → List (Nat × Act δ) → Nat
  | _, [] => 0
  | s, e :: es => (if s.takes e then 1 else 0) + match s.step e with
    | some s' => turns s' es
    | none => 0

theorem run_served {es : List (Nat × Act δ)} (h : Inv s l) (hroom : Along step RoomFor s es)
    (hrun : run step s es = some s') : ∃ l', Inv s' l' ∧ ∃ r, l' = l.drop (turns s es) ++ r := by
  induction es generalizing s l with
  | nil =>
    cases hrun
    exact ⟨l, h, [], (List.append_nil l).symm⟩
  | cons e es ih =>
    obtain ⟨u, hu, hrest⟩ := run_cons.1 hrun
    obtain ⟨hhere, hlater⟩ := hroom u hu
    obtain ⟨m, ⟨r, hm⟩, hinv⟩ := step_leads h hhere hu
    obtain ⟨l', hl', r', hr'⟩ := ih hinv hlater hrest
    refine ⟨l', hl', r.drop (turns u es - (if s.takes e then l.tail else l).length) ++ r', ?_⟩
    rw [hr', hm, List.drop_append, List.append_assoc, turns, hu]
    congr 1
    cases s.takes e with
    | false =>
      simp only [Bool.false_eq_true, if_false]
      rw [Nat.zero_add]
    | true =>
      simp only [if_true]
      rw [List.drop_tail, Nat.add_comm]

/-- What a step that takes a queue has in its hands afterwards. -/
theorem step_takes {e : Nat × Act δ} (h : Inv s (c :: l)) (he : s.takes e = true) (hstep : s.step e = some s') :
    ∃ g st, s'.thread[e.1]? = some (g :: st) ∧ 0 < g.holds c := by
  obtain ⟨t, a⟩ := e
  obtain ⟨g, hg, _⟩ := GlobalQueue.pop_cons h.reps
  rw [step] at hstep
  split at hstep
  · rename_i f st hst
    obtain ⟨r, hact, rfl⟩ := Option.map_eq_some_iff.1 hstep
    rw [takes, hst] at he
    cases a with
    | go =>
      cases hact
      have hset := fun fs => getElem?_set_of_step hst fs
      cases f with
      | top q =>
        cases q with
        | none =>
          simp only [go, globalPop, hg]
          exact ⟨.top (some c), st, hset _, by simp [Frame.holds]⟩
        | some q => cases he
      | swap q d =>
        obtain ⟨_, rfl, _⟩ := h.frameOk hst
        rw [go, check_of (by simp)]
        simp only [globalPop, hg]
        exact ⟨.pushBack q q c, st, hset _, by simp [Frame.holds]⟩
      | _ => cases he
    | _ => cases he
  · cases hstep

/-- The links of the global queue lead through one list only. -/
theorem reps_unique {g : GlobalQueue} (hl : g.Reps l) (hl' : g.Reps l') : l = l' := by
  induction l generalizing g l' with
  | nil =>
    have hhead := hl'.head
    rw [hl.head, eq_comm] at hhead
    exact (List.head?_eq_none_iff.1 hhead).symm
  | cons a l ih =>
    cases l' with
    | nil =>
      have hhead := hl.head
      rw [hl'.head] at hhead
      cases hhead
    | cons b l' =>
      obtain ⟨g1, hg1, hreps1⟩ := GlobalQueue.pop_cons hl
      obtain ⟨g2, hg2, hreps2⟩ := GlobalQueue.pop_cons hl'
      rw [hg1] at hg2
      cases hg2
      rw [ih hreps1 hreps2]

/-- The global queue is served in its order: a queue that has `k` others before it is the one that is taken after `k`
others were, whatever the threads do meanwhile. -/
theorem run_fair {fs : List (Nat × Act δ)} {e : Nat × Act δ} {s'' : Server δ} {k : Nat}
    (hroom : Along step RoomFor (start harbor worker weight) (es ++ fs))
    (hrun : run step (start harbor worker weight) es = some s) (hreps : s.global.Reps l) (hk : l[k]? = some c)
    (hrun' : run step s fs = some s') (hturns : turns s fs = k) (he : s'.takes e = true)
    (hstep : s'.step e = some s'') : ∃ g st, s''.thread[e.1]? = some (g :: st) ∧ 0 < g.holds c := by
  obtain ⟨hbefore, hafter⟩ := along_append hroom
  obtain ⟨l0, h⟩ := run_inv hbefore hrun
  obtain rfl := reps_unique h.reps hreps
  obtain ⟨l', h', r, rfl⟩ := run_served h (hafter s hrun) hrun'
  obtain ⟨hlt, rfl⟩ := List.getElem?_eq_some_iff.1 hk
  rw [hturns, List.drop_eq_getElem_cons hlt, List.cons_append] at h'
  exact step_takes h' he hstep

/-- Two services are created; then a worker takes the queue of the first one, and finds it empty. -/
def twoServices : List (Nat × Act Nat) :=
  [(0, .new), (0, .initialized true), (0, .go), (0, .go), (0, .go),
    (0, .new), (0, .initialized true), (0, .go), (0, .go), (0, .go)]

theorem run_fair_twoServices : ∃ s s' s'', run step (start 1 [false, true] fun _ => 0) twoServices = some s ∧
    run step s [(1, .go), (1, .go), (1, .go), (1, .go)] = some s' ∧ s'.step (1, .go) = some s'' ∧
    ∃ g st, s''.thread[1]? = some (g :: st) ∧ 0 < g.holds 1 := by
  have hglobal : (run step (start 1 [false, true] fun _ => 0) twoServices).map (·.global) =
      some ⟨some 0, some 1, update (fun _ => none) 0 (some 1)⟩ := rfl
  obtain ⟨s, hs, hg⟩ := Option.map_eq_some_iff.1 hglobal
  have hreps : s.global.Reps [0, 1] := by
    rw [hg]
    exact GlobalQueue.Reps.mk (by decide) rfl rfl (by
      funext c
      by_cases hc : c = 0
      · rw [hc]
        rfl
      · change update (fun _ => none) 0 (some 1) c = if c = 0 then some 1 else none
        rw [update_of_ne hc, if_neg hc])
  have hall : (run step (start 1 [false, true] fun _ => 0) twoServices).all (fun s =>
      turns s [(1, .go), (1, .go), (1, .go), (1, .go)] = 1 ∧
        ((run step s [(1, .go), (1, .go), (1, .go), (1, .go)]).any fun s' =>
          s'.takes (1, .go) && (s'.step (1, .go)).isSome) = true) = true := by decide +kernel
  rw [hs] at hall
  obtain ⟨hturns, hany⟩ := of_decide_eq_true hall
  obtain ⟨s', hs', hlast⟩ := (Option.any_eq_true _ _).1 hany
  obtain ⟨htakes, hsome⟩ := Bool.and_eq_true_iff.1 hlast
  obtain ⟨s'', hs''⟩ := Option.isSome_iff_exists.1 hsome
  exact ⟨s, s', s'', hs, hs', hs'', run_fair (by decide +kernel) hs hreps rfl hs' hturns htakes hs''⟩

end Server

end RoundGame.Skynet
