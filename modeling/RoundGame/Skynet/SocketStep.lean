import RoundGame.Skynet.SocketInv

/-!
# Opening, reading and closing a socket

The rest of what the socket thread does with a slot: it keeps `Ok`, and the packages stay where they are (`Leads`), but
that those in the lists are lost when the socket is closed.
-/

namespace RoundGame.Skynet.SocketServer

open Outbox
open SocketType (Next)

namespace Socket

variable {β : Type} {s t : Socket β} {answers : List Answer} {id handle : Nat} {rep : Option (Report β)}

theorem Ok.live_of_ne (h : s.Ok) (hq : s.queue ≠ []) : s.live := by
  have hcarries : s.type.carries = true := by
    by_contra hc
    exact hq (h.idle (by simpa using hc))
  refine ⟨fun hx => ?_, fun hx => ?_⟩ <;>
  · rw [hx] at hcarries
    cases hcarries

theorem queue_eq_nil_iff : s.sendBufferEmpty = true ↔ s.queue = [] := by
  simp [sendBufferEmpty, queue]

/-- A socket is closed whatever it is. -/
theorem closed_spec (h : s.Ok) (hr : s.type ≠ .reserve) (hs : s.forceClose = some t) :
    s.Leads 0 t ∧ t.Waits ∧ (s.queue = [] → t.lost = s.lost) := by
  have hidle : s.type = .invalid → s.queue = [] := by
    intro hx
    apply h.idle
    rw [hx]
    rfl
  obtain ⟨hleads, htype, hlost⟩ := forceClose_spec hr h.polled hidle hs
  refine ⟨hleads, ?_, hlost⟩
  rw [Waits, htype]
  exact (by cases ·)

/-- The lists are sent before a socket is closed. -/
theorem sendPending_spec {c : Bool} (h : s.Ok) (hl : s.live)
    (hs : (if s.sendBufferEmpty then some (s, false) else s.sendBuffer answers) = some (t, c)) :
    s.Leads 0 t ∧ (c = true → t.type = .invalid) ∧ ((∀ a ∈ answers, a ≠ .error) → t.lost = s.lost) := by
  split at hs
  · cases hs
    exact ⟨⟨h, (add_zero _).symm, rfl, .refl _⟩, (by cases ·), fun _ => rfl⟩
  · obtain ⟨hleads, hinv, -, hlost⟩ := sendBuffer_spec h hl hs
    exact ⟨hleads, hinv, hlost⟩

theorem closeSocket_spec {shutdown : Bool} (h : s.Ok) (hw : s.Waits) (hr : s.type = .reserve → s.id ≠ id)
    (hs : s.closeSocket id handle shutdown answers = some (t, rep)) :
    s.Leads 0 t ∧ t.Waits ∧ (shutdown = false → (∀ a ∈ answers, a ≠ .error) → t.lost = s.lost) := by
  rw [closeSocket] at hs
  split at hs
  · cases hs
    exact ⟨⟨h, (add_zero _).symm, rfl, .refl _⟩, hw, fun _ _ => rfl⟩
  rename_i hsame
  rw [not_or, not_not] at hsame
  have hr' : s.type ≠ .reserve := fun hx => hr hx hsame.2
  cases hu : if s.sendBufferEmpty then some (s, false) else s.sendBuffer answers with
  | none =>
    rw [hu] at hs
    cases hs
  | some r =>
  obtain ⟨u, c⟩ := r
  obtain ⟨hleads, hinv, hlost⟩ := sendPending_spec h ⟨hsame.1, hr'⟩ hu
  rw [hu] at hs
  cases c with
  | true =>
    cases hs
    refine ⟨hleads, ?_, fun _ hne => hlost hne⟩
    rw [Waits, hinv rfl]
    exact (by cases ·)
  | false =>
    dsimp only at hs
    have hur : u.type ≠ .reserve := fun hx => hr' (hleads.type.reserve.1 hx)
    split at hs
    · rename_i hclose
      obtain ⟨t', ht, heq⟩ := Option.map_eq_some_iff.1 hs
      cases heq
      obtain ⟨hleads', hwaits, hlost'⟩ := closed_spec hleads.ok hur ht
      refine ⟨⟨hleads'.ok, ?_, hleads'.id.trans hleads.id, hleads.type.trans hleads'.type⟩, hwaits, fun hno hne => ?_⟩
      · rw [hleads'.all, hleads.all, add_zero]
      · rw [hno] at hclose
        rw [hlost' (queue_eq_nil_iff.1 (by simpa using hclose)), hlost hne]
    · rename_i hopen
      cases hs
      have hq : u.queue ≠ [] := fun hq => hopen (.inr (queue_eq_nil_iff.2 hq))
      have hlive := hleads.ok.live_of_ne hq
      have hpolls : u.type.polls = true := polls_of_carries (by
        by_contra hc
        exact hq (hleads.ok.idle (by simpa using hc)))
      refine ⟨⟨⟨fun _ => (hleads.ok.flow hlive).congr rfl rfl rfl rfl rfl, (by cases ·), ?_, fun hb _ => ?_,
        (by cases ·)⟩, hleads.all, hleads.id, .live hr' hsame.1 (by cases ·)⟩, (by cases ·), fun _ hne => hlost hne⟩
      · show u.polled = true
        rw [hleads.ok.polled, hpolls]
      · exact hleads.ok.interest hb (.inl hq)

/-! ## Filling a slot -/

/-- A slot with nothing in its lists. -/
theorem ok_of_nil (hflow : s.live → s.Flow) (hq : s.queue = []) (hpolled : s.polled = s.type.polls)
    (hhalf : s.type ≠ .halfclose) (hbind : s.type = .bind → s.bound = true) : s.Ok :=
  ⟨hflow, fun _ => hq, hpolled, fun _ hi => absurd hi (not_or.2 ⟨not_not.2 hq, hhalf⟩), hbind⟩

/-- `reserve_id` takes a slot that is free. -/
theorem reserve_spec (id : Nat) (h : s.Ok) (hfree : s.type = .invalid) :
    ({ s with type := .reserve, id := id }).Ok := by
  have hq : s.queue = [] := h.idle (by rw [hfree]; rfl)
  have hpolled : s.polled = false := by rw [h.polled, hfree]; rfl
  exact ok_of_nil (fun hl => absurd rfl hl.2) hq hpolled (by cases ·) (by cases ·)

/-- A slot that is reserved is filled; `add` is the answer of the event poll. -/
theorem newFd_spec (id handle : Nat) (add : Option Bool) (h : s.Ok) (hr : s.type = .reserve) :
    ∃ u ok, s.newFd id handle add = some (u, ok) ∧
    u.all = s.all ∧ u.lost = s.lost ∧ (ok = true ↔ add ≠ some false) ∧ u.queue = [] ∧
    (ok = false → u.Ok ∧ u.type = .invalid ∧ u.id = s.id) ∧
    (ok = true → u.Flow ∧ u.polled = add.isSome ∧ u.bound = false ∧ u.id = id) := by
  have hq : s.queue = [] := h.idle (by rw [hr]; rfl)
  obtain ⟨hhigh, hlow⟩ := List.append_eq_nil_iff.1 hq
  rw [newFd, if_neg (not_not.2 hr)]
  split
  · rename_i hadd
    refine ⟨_, _, rfl, rfl, rfl, iff_of_false (by cases ·) (not_not.2 hadd), hq, fun _ => ?_, (by cases ·)⟩
    have hpolled : s.polled = false := by rw [h.polled, hr]; rfl
    exact ⟨ok_of_nil (fun hl => absurd rfl hl.1) hq hpolled (by cases ·) (by cases ·), rfl, rfl⟩
  · rename_i hadd
    rw [if_neg (by simp [hhigh, hlow])]
    refine ⟨_, _, rfl, rfl, rfl, iff_of_true rfl hadd, hq, (by cases ·), fun _ => ⟨?_, rfl, rfl, rfl⟩⟩
    refine ⟨?_, ?_, ⟨[], ?_, ?_⟩, ?_⟩
    · show ∀ x ∈ s.low, _
      rw [hlow]
      simp
    · show ∀ x ∈ s.high.tail, _
      rw [hhigh]
      simp
    · show Written Package.bytes [] [] s.queue
      rw [hq]
      exact written_start
    · show SameLanes Package.priority [] ([] ++ items s.queue)
      rw [hq]
      exact fun _ => rfl
    · show (0 : Int) = ((pending Package.bytes s.queue).length : Int)
      rw [hq]
      rfl

/-- What comes of a slot that is filled. -/
structure Filled (s : Socket β) (id : Nat) (t : Socket β) : Prop where
  ok : t.Ok
  waits : t.Waits
  all : t.all = s.all
  lost : t.lost = s.lost
  type : t.type ≠ .reserve
  id : t.type ≠ .invalid → t.id = id

/-- What `new_fd` made, with the type that the slot has then. -/
theorem filled_of_flow (hflow : t.Flow) (hq : t.queue = []) (hpolled : t.polled = t.type.polls) (hall : t.all = s.all)
    (hlost : t.lost = s.lost) (hid : t.id = id) (hwaits : t.Waits) (hreserve : t.type ≠ .reserve)
    (hhalf : t.type ≠ .halfclose) (hbind : t.type = .bind → t.bound = true) : s.Filled id t :=
  ⟨ok_of_nil (fun _ => hflow) hq hpolled hhalf hbind, hwaits, hall, hlost, hreserve, fun _ => hid⟩

theorem filled_of_invalid (htype : t.type = .invalid) (hq : t.queue = []) (hpolled : t.polled = false)
    (hall : t.all = s.all) (hlost : t.lost = s.lost) : s.Filled id t where
  ok := ok_of_nil (fun hl => absurd htype hl.1) hq (by rw [hpolled, htype]; rfl) (by rw [htype]; exact (by cases ·))
    (by rw [htype]; exact (by cases ·))
  waits := by rw [Waits, htype]; exact (by cases ·)
  all := hall
  lost := hlost
  type := by rw [htype]; exact (by cases ·)
  id h := absurd htype h

theorem openSocket_spec (handle : Nat) (answer : Connect) (h : s.Ok) (hr : s.type = .reserve) :
    ∃ t rep, s.openSocket id handle answer = some (t, rep) ∧ s.Filled id t := by
  have hq : s.queue = [] := h.idle (by rw [hr]; rfl)
  have hpolled : s.polled = false := by rw [h.polled, hr]; rfl
  rw [openSocket]
  split
  · exact ⟨_, _, rfl, filled_of_invalid rfl hq hpolled rfl rfl⟩
  obtain ⟨u, ok, hu, hall, hlost, hadd, huq, hfull, hnew⟩ := newFd_spec id handle (some (answer ≠ .full)) h hr
  rw [hu]
  cases ok with
  | false =>
    obtain ⟨huok, hutype, -⟩ := hfull rfl
    have hupolled : u.polled = false := by rw [huok.polled, hutype]; rfl
    exact ⟨_, _, rfl, filled_of_invalid rfl huq hupolled hall hlost⟩
  | true =>
    obtain ⟨hflow, hupolled, -, huid⟩ := hnew rfl
    dsimp only
    split
    · exact ⟨_, _, rfl, filled_of_flow (hflow.congr rfl rfl rfl rfl rfl) huq hupolled hall hlost huid (by cases ·)
        (by cases ·) (by cases ·) (by cases ·)⟩
    · exact ⟨_, _, rfl, filled_of_flow (hflow.congr rfl rfl rfl rfl rfl) huq hupolled hall hlost huid (fun _ => rfl)
        (by cases ·) (by cases ·) (by cases ·)⟩

theorem listenSocket_spec (handle : Nat) (h : s.Ok) (hr : s.type = .reserve) :
    ∃ t rep, s.listenSocket id handle = some (t, rep) ∧ s.Filled id t := by
  obtain ⟨u, ok, hu, hall, hlost, hadd, huq, -, hnew⟩ := newFd_spec id handle none h hr
  obtain ⟨hflow, hupolled, -, huid⟩ := hnew (hadd.2 (by cases ·))
  rw [listenSocket, hu]
  exact ⟨_, _, rfl, filled_of_flow (hflow.congr rfl rfl rfl rfl rfl) huq hupolled hall hlost huid (by cases ·)
    (by cases ·) (by cases ·) (by cases ·)⟩

theorem bindSocket_spec (handle : Nat) (add : Bool) (h : s.Ok) (hr : s.type = .reserve) :
    ∃ t rep, s.bindSocket id handle add = some (t, rep) ∧ s.Filled id t := by
  obtain ⟨u, ok, hu, hall, hlost, hadd, huq, hfull, hnew⟩ := newFd_spec id handle (some add) h hr
  rw [bindSocket, hu]
  cases ok with
  | false =>
    obtain ⟨huok, hutype, -⟩ := hfull rfl
    exact ⟨_, _, rfl, filled_of_invalid hutype huq (by rw [huok.polled, hutype]; rfl) hall hlost⟩
  | true =>
    obtain ⟨hflow, hupolled, -, huid⟩ := hnew rfl
    exact ⟨_, _, rfl, filled_of_flow (hflow.congr rfl rfl rfl rfl rfl) huq hupolled hall hlost huid (by cases ·)
      (by cases ·) (by cases ·) (fun _ => rfl)⟩

/-- `report_accept` fills the slot that it reserves. -/
theorem newFd_accept_spec (handle : Nat) (h : s.Ok) (hr : s.type = .reserve) :
    ∃ u, s.newFd id handle none = some (u, true) ∧ s.Filled id { u with type := .paccept } := by
  obtain ⟨u, ok, hu, hall, hlost, hadd, huq, -, hnew⟩ := newFd_spec id handle none h hr
  obtain rfl : ok = true := hadd.2 (by cases ·)
  obtain ⟨hflow, hupolled, -, huid⟩ := hnew rfl
  exact ⟨u, hu, filled_of_flow (hflow.congr rfl rfl rfl rfl rfl) huq hupolled hall hlost huid (by cases ·)
    (by cases ·) (by cases ·) (by cases ·)⟩

/-! ## Starting, reading -/

theorem startSocket_spec {add : Bool} (h : s.Ok) (hw : s.Waits) (hr : s.type = .reserve → s.id ≠ id)
    (hs : s.startSocket id handle add = some (t, rep)) : s.Leads 0 t ∧ t.Waits ∧ t.lost = s.lost := by
  have hself : s.Leads 0 s := ⟨h, (add_zero _).symm, rfl, .refl _⟩
  rw [startSocket] at hs
  split at hs
  · cases hs
    exact ⟨hself, hw, rfl⟩
  rename_i hsame
  rw [not_or, not_not] at hsame
  have hr' : s.type ≠ .reserve := fun hx => hr hx hsame.2
  split at hs
  · rename_i hpending
    have hq : s.queue = [] := h.idle (by rcases hpending with hx | hx <;> rw [hx] <;> rfl)
    split at hs
    · cases hs
      have hflow := h.flow ⟨hsame.1, hr'⟩
      refine ⟨⟨ok_of_nil (fun _ => hflow.congr rfl rfl rfl rfl rfl) hq ?_ ?_ ?_, (add_zero _).symm, rfl,
        .live hr' hsame.1 ?_⟩, ?_, rfl⟩
      all_goals rcases hpending with hx | hx <;> simp [hx, Waits, SocketType.polls]
    · obtain ⟨t', ht, heq⟩ := Option.map_eq_some_iff.1 hs
      cases heq
      obtain ⟨hleads, hwaits, hlost⟩ := closed_spec h hr' ht
      exact ⟨hleads, hwaits, hlost hq⟩
  split at hs
  · cases hs
    exact ⟨⟨h.same rfl rfl rfl rfl rfl rfl rfl rfl rfl, (add_zero _).symm, rfl, .refl _⟩, hw, rfl⟩
  · cases hs
    exact ⟨hself, hw, rfl⟩

theorem reportConnect_spec {ok : Bool} (h : s.Ok) (hc : s.type = .connecting)
    (hs : s.reportConnect ok = some (t, rep)) :
    s.Leads 0 t ∧ t.Waits ∧ (ok = true → t.lost = s.lost) := by
  have hr : s.type ≠ .reserve := by rw [hc]; exact (by cases ·)
  rw [reportConnect] at hs
  split at hs
  · cases hs
    refine ⟨⟨⟨fun _ => ?_, (by cases ·), ?_, fun hb hi => ?_, (by cases ·)⟩, (add_zero _).symm, rfl,
      .live hr (by rw [hc]; exact (by cases ·)) (by cases ·)⟩, (by cases ·), fun _ => rfl⟩
    · exact (h.flow ⟨by rw [hc]; exact (by cases ·), hr⟩).congr rfl rfl rfl rfl rfl
    · show s.polled = true
      rw [h.polled, hc]
      rfl
    · have hq : s.queue ≠ [] := hi.resolve_right (by cases ·)
      show (if s.sendBufferEmpty then false else s.writing) = true
      rw [if_neg (fun he => hq (queue_eq_nil_iff.1 he))]
      exact h.interest hb (.inl hq)
  · rename_i hok
    obtain ⟨t', ht, heq⟩ := Option.map_eq_some_iff.1 hs
    cases heq
    obtain ⟨hleads, hwaits, -⟩ := closed_spec h hr ht
    exact ⟨hleads, hwaits, fun h => absurd h hok⟩

/-- Neither an error nor the end. -/
def Reads : Read β → Prop
  | .error => False
  | .bytes [] => False
  | _ => True

theorem forwardMessageTcp_spec {answer : Read β} (h : s.Ok) (hw : s.Waits) (hr : s.type ≠ .reserve)
    (hs : s.forwardMessageTcp answer = some (t, rep)) :
    s.Leads 0 t ∧ t.Waits ∧ (Reads answer → t.lost = s.lost) := by
  have hself : s.Leads 0 s := ⟨h, (add_zero _).symm, rfl, .refl _⟩
  have hclose : ∀ t', s.forceClose = some t' → s.Leads 0 t' ∧ t'.Waits := by
    intro t' ht
    obtain ⟨hleads, hwaits, -⟩ := closed_spec h hr ht
    exact ⟨hleads, hwaits⟩
  unfold forwardMessageTcp at hs
  split at hs
  · cases hs
    exact ⟨hself, hw, fun _ => rfl⟩
  · cases hs
    exact ⟨hself, hw, fun _ => rfl⟩
  · obtain ⟨t', ht, heq⟩ := Option.map_eq_some_iff.1 hs
    cases heq
    exact ⟨(hclose _ ht).1, (hclose _ ht).2, False.elim⟩
  · obtain ⟨t', ht, heq⟩ := Option.map_eq_some_iff.1 hs
    cases heq
    exact ⟨(hclose _ ht).1, (hclose _ ht).2, False.elim⟩
  · split at hs
    · cases hs
      exact ⟨hself, hw, fun _ => rfl⟩
    · cases hs
      exact ⟨⟨h.same rfl rfl rfl rfl rfl rfl rfl rfl rfl, (add_zero _).symm, rfl, .refl _⟩, hw, fun _ => rfl⟩

/-! ## Assertions -/

/-- No user object is sent with low priority. -/
def Plain (s : Socket β) : Prop := ∀ p ∈ s.all, p.priority = .low → p.userobject = false

theorem Ok.complete (h : s.Ok) (hplain : s.Plain) (hl : s.live) : listUncomplete s.low = false := by
  cases hlow : s.low with
  | nil => rfl
  | cons wb low =>
    have hmem : wb ∈ s.low := by rw [hlow]; exact List.mem_cons_self
    obtain ⟨hpos, hprio⟩ := (h.flow hl).low wb hmem
    have hall : wb.item ∈ s.all := by
      rw [all, Multiset.mem_add]
      exact .inr (Multiset.mem_coe.2 (List.mem_map_of_mem (List.mem_append_right _ hmem)))
    simp [listUncomplete, hpos, hplain _ hall hprio]

theorem sendBuffer_isSome (h : s.Ok) (hl : s.live) (hlow : listUncomplete s.low = false) :
    (s.sendBuffer answers).isSome := by
  rw [sendBuffer, hlow, if_neg (by cases ·)]
  rcases sendList_cases answers h hl .high (by cases ·) with ⟨t, rest, heq, -⟩ | ⟨rest, heq, -⟩
  · rw [heq]
    rfl
  rw [heq]
  have hok := sentHigh_ok answers h hl
  have hlive : (s.sentList .high answers).live := hl
  generalize s.sentList .high answers = u at hok hlive
  dsimp only
  split
  · rfl
  rename_i hhigh
  rw [not_not] at hhigh
  split
  · rcases sendList_cases rest hok hlive .low (fun _ => hhigh) with ⟨t, rest', heq', -⟩ | ⟨rest', heq', -⟩
    · rw [heq']
      rfl
    rw [heq']
    dsimp only
    split
    · rename_i hun
      -- the list has a first package
      have hempty : (u.sentList .low rest).high = [] := hhigh
      cases hlist : (u.sentList .low rest).low with
      | nil =>
        rw [hlist] at hun
        cases hun
      | cons wb low =>
        rw [raiseUncomplete, hlist, hempty]
        rfl
    · rfl
  · split
    · rw [Option.isSome_map]
      exact forceClose_isSome hlive.2
    · rfl

theorem sendSocket_isSome {p : Package β} {answer : Answer} (hr : s.type = .reserve → s.id ≠ id) :
    (s.sendSocket id p answer).isSome := by
  rw [sendSocket]
  split
  · rfl
  rename_i hopen
  have hr' : s.type ≠ .reserve := fun hx => hopen (.inr (.inl (hr hx)))
  split
  · rfl
  dsimp only
  split
  · cases answer with
    | error =>
      dsimp only
      rw [Option.isSome_map]
      exact forceClose_isSome hr'
    | took n =>
      dsimp only
      split <;> rfl
    | intr =>
      dsimp only
      split <;> rfl
    | again =>
      dsimp only
      split <;> rfl
  · rfl

theorem closeSocket_isSome {shutdown : Bool} (h : s.Ok) (hplain : s.Plain) (hr : s.type = .reserve → s.id ≠ id) :
    (s.closeSocket id handle shutdown answers).isSome := by
  rw [closeSocket]
  split
  · rfl
  rename_i hsame
  rw [not_or, not_not] at hsame
  have hl : s.live := ⟨hsame.1, fun hx => hr hx hsame.2⟩
  obtain ⟨⟨u, c⟩, hu⟩ : ∃ r, (if s.sendBufferEmpty then some (s, false) else s.sendBuffer answers) = some r := by
    rw [← Option.isSome_iff_exists]
    split
    · rfl
    · exact sendBuffer_isSome h hl (h.complete hplain hl)
  rw [hu]
  obtain ⟨hleads, -, -⟩ := sendPending_spec h hl hu
  cases c with
  | true => rfl
  | false =>
    dsimp only
    split
    · rw [Option.isSome_map]
      exact forceClose_isSome fun hx => hl.2 (hleads.type.reserve.1 hx)
    · rfl

theorem startSocket_isSome {add : Bool} (hr : s.type = .reserve → s.id ≠ id) :
    (s.startSocket id handle add).isSome := by
  rw [startSocket]
  split
  · rfl
  rename_i hsame
  rw [not_or, not_not] at hsame
  split
  · split
    · rfl
    · rw [Option.isSome_map]
      exact forceClose_isSome fun hx => hr hx hsame.2
  split <;> rfl

theorem reportConnect_isSome {ok : Bool} (hr : s.type ≠ .reserve) : (s.reportConnect ok).isSome := by
  rw [reportConnect]
  split
  · rfl
  · rw [Option.isSome_map]
    exact forceClose_isSome hr

theorem forwardMessageTcp_isSome {answer : Read β} (hr : s.type ≠ .reserve) : (s.forwardMessageTcp answer).isSome := by
  unfold forwardMessageTcp
  split
  · rfl
  · rfl
  · rw [Option.isSome_map]
    exact forceClose_isSome hr
  · rw [Option.isSome_map]
    exact forceClose_isSome hr
  · split <;> rfl

end Socket

end RoundGame.Skynet.SocketServer
