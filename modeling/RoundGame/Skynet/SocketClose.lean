import RoundGame.Skynet.SocketServerInv

/-!
# Closing a socket that has something to write

`close_socket` leaves a socket half closed while its lists are not empty. Once the kernel has room for all of it
(`Roomy`), the socket is closed and nothing is lost (`halfclose_ends`).
-/

namespace RoundGame.Skynet.SocketServer

open Function Outbox StepSys

variable {β : Type} {answers : List Answer} {a b : List (WriteBuffer β)}

/-- The kernel takes all the packages, each by one `write`. -/
def Roomy (answers : List Answer) (wbs : List (WriteBuffer β)) : Prop :=
  wbs.length ≤ answers.length ∧ ∀ x ∈ answers, ∃ n, x = .took n ∧ ∀ wb ∈ wbs, wb.sz ≤ n

theorem Roomy.ne_error (h : Roomy answers a) : ∀ x ∈ answers, x ≠ .error := by
  intro x hx
  obtain ⟨n, rfl, -⟩ := h.2 x hx
  exact (by cases ·)

theorem Roomy.nil (h : Roomy answers a) : Roomy answers ([] : List (WriteBuffer β)) := by
  refine ⟨Nat.zero_le _, fun x hx => ?_⟩
  obtain ⟨n, hn, -⟩ := h.2 x hx
  exact ⟨n, hn, fun wb hwb => (List.not_mem_nil hwb).elim⟩

/-- `a` is written; there is room for `b` then. -/
theorem sendListTcp_roomy (h : Roomy answers (a ++ b)) :
    (sendListTcp answers a).list = [] ∧ (sendListTcp answers a).failed = false ∧
      Roomy (sendListTcp answers a).answers b := by
  induction a generalizing answers with
  | nil =>
    rw [sendListTcp]
    exact ⟨rfl, rfl, h⟩
  | cons wb a ih =>
    obtain ⟨hlength, htook⟩ := h
    cases answers with
    | nil => exact absurd hlength (by simp)
    | cons x answers =>
      obtain ⟨n, rfl, hn⟩ := htook x List.mem_cons_self
      have hsz : min n wb.sz = wb.sz := Nat.min_eq_right (hn wb List.mem_cons_self)
      have hrest : Roomy answers (a ++ b) := by
        refine ⟨Nat.le_of_succ_le_succ hlength, fun y hy => ?_⟩
        obtain ⟨m, hm, hle⟩ := htook y (List.mem_cons_of_mem _ hy)
        exact ⟨m, hm, fun wb' hwb => hle wb' (List.mem_cons_of_mem _ hwb)⟩
      rw [sendListTcp, hsz, if_neg (not_not.2 rfl)]
      exact ih hrest

namespace Socket

variable {s : Socket β}

theorem sendList_roomy {p : Priority} (h : Roomy answers (s.lane p ++ b)) :
    ∃ rest, s.sendList p answers = some (s.sentList p answers, false, rest) ∧ (s.sentList p answers).lane p = [] ∧
      Roomy rest b := by
  obtain ⟨hlist, hfailed, hrest⟩ := sendListTcp_roomy h
  refine ⟨(sendListTcp answers (s.lane p)).answers, ?_, ?_, hrest⟩
  · rw [sendList, hfailed]
    rfl
  · cases p with
    | high => exact hlist
    | low => exact hlist

/-- A half-closed socket is closed when everything is written. -/
theorem sendBuffer_closes (hhalf : s.type = .halfclose) (hlow : s.low = []) (hroom : Roomy answers s.queue) :
    ∃ t, s.sendBuffer answers = some (t, true) := by
  obtain ⟨rest, heq, hnil, -⟩ := sendList_roomy (p := .high) hroom
  have hhigh : (s.sentList .high answers).high = [] := hnil
  have hlow' : (s.sentList .high answers).low = [] := hlow
  have hhalf' : (s.sentList .high answers).type = .halfclose := hhalf
  have hr : (s.sentList .high answers).type ≠ .reserve := by
    rw [hhalf']
    exact (by cases ·)
  obtain ⟨t, ht⟩ := Option.isSome_iff_exists.1
    (forceClose_isSome (s := { s.sentList .high answers with writing := false }) hr)
  refine ⟨t, ?_⟩
  rw [sendBuffer, hlow, heq, if_neg (by cases ·)]
  dsimp only
  rw [if_neg (not_not.2 hhigh), if_neg (not_not.2 hlow'), if_pos hhalf', ht]
  rfl

/-- The call that writes the list of low priority does not look whether the socket is half closed. -/
theorem sendBuffer_empties (hlow : s.low ≠ []) (hun : listUncomplete s.low = false) (hroom : Roomy answers s.queue) :
    ∃ t, s.sendBuffer answers = some (t, false) ∧ t.queue = [] ∧ t.bound = s.bound ∧ t.handle = s.handle := by
  obtain ⟨rest, heq, hnil, hrest⟩ := sendList_roomy (p := .high) hroom
  have hhigh : (s.sentList .high answers).high = [] := hnil
  have hlow' : (s.sentList .high answers).low ≠ [] := hlow
  have hroom' : Roomy rest ((s.sentList .high answers).lane .low ++ []) := by
    rw [List.append_nil]
    exact hrest
  obtain ⟨rest', heq', hnil', -⟩ := sendList_roomy hroom'
  refine ⟨(s.sentList .high answers).sentList .low rest, ?_, ?_, rfl, rfl⟩
  · rw [sendBuffer, hun, heq, if_neg (by cases ·)]
    dsimp only
    rw [if_neg (not_not.2 hhigh), if_pos hlow', heq']
    dsimp only
    rw [show ((s.sentList .high answers).sentList .low rest).low = [] from hnil']
    rfl
  · show (s.sentList .high answers).high ++ _ = []
    rw [hhigh]
    exact hnil'

end Socket

namespace Server

variable {S : Server β} {k : Nat} {t : Socket β}

theorem write_step {c : Bool} (hrun : S.aborted = false) (hhalf : (S.slot k).type = .halfclose)
    (hpolled : (S.slot k).polled = true) (hwriting : (S.slot k).writing = true)
    (hs : (S.slot k).sendBuffer answers = some (t, c)) :
    step S (.event k (.write answers)) =
      some (S.onSlot k (some (t, if c then some (.close (S.slot k).id (S.slot k).handle) else none))) := by
  have hopen : ¬ ((S.slot k).type = .connecting ∨ (S.slot k).type = .listen ∨ (S.slot k).type = .invalid ∨
      (S.slot k).writing = false) := by
    rw [hhalf, hwriting]
    decide
  rw [step, hrun, if_neg (by cases ·), perform, if_pos hpolled, event, if_neg hopen, hs]
  rfl

/-- A half-closed socket is closed, with nothing lost, by at most two events in which the kernel takes everything. -/
theorem halfclose_ends (h : S.Inv) (hrun : S.aborted = false) (hplain : (S.slot k).Plain)
    (hhalf : (S.slot k).type = .halfclose) (hb : (S.slot k).bound = false) (hroom : Roomy answers (S.slot k).queue) :
    ∃ n ≤ 2, ∃ T, run step S (List.replicate n (.event k (.write answers))) = some T ∧ (T.slot k).type = .invalid ∧
      (T.slot k).lost = (S.slot k).lost ∧ T.reports = S.reports ++ [.close (S.slot k).id (S.slot k).handle] := by
  have hl : (S.slot k).live := by rw [Socket.live, hhalf]; decide
  have hok := h.ok k
  have hpolled : (S.slot k).polled = true := by rw [hok.polled, hhalf]; rfl
  have hwriting := hok.interest hb (.inr hhalf)
  by_cases hlow : (S.slot k).low = []
  · obtain ⟨t, ht⟩ := Socket.sendBuffer_closes hhalf hlow hroom
    obtain ⟨-, htype, -, hlost⟩ := Socket.sendBuffer_spec hok hl ht
    refine ⟨1, by decide, _, run_cons.2 ⟨_, write_step hrun hhalf hpolled hwriting ht, rfl⟩, ?_, ?_, ?_⟩
    · show (update S.slot k t k).type = _
      rw [update_self, htype rfl]
    · show (update S.slot k t k).lost = _
      rw [update_self, hlost (hroom.ne_error)]
    · rfl
  · obtain ⟨u, hu, huq, hub, huh⟩ := Socket.sendBuffer_empties hlow (hok.complete hplain hl) hroom
    obtain ⟨hleads, -, hutype, hulost⟩ := Socket.sendBuffer_spec hok hl hu
    have huhalf : u.type = .halfclose := by rw [hutype rfl, hhalf]
    have hul : u.live := by rw [Socket.live, huhalf]; decide
    have hroom' : Roomy answers u.queue := by rw [huq]; exact hroom.nil
    obtain ⟨t, ht⟩ := Socket.sendBuffer_closes huhalf (List.append_eq_nil_iff.1 huq).2 hroom'
    obtain ⟨-, htype, -, hlost⟩ := Socket.sendBuffer_spec hleads.ok hul ht
    have hfirst := write_step hrun hhalf hpolled hwriting hu
    generalize hU : S.onSlot k _ = U at hfirst
    have hslot : U.slot k = u := by rw [← hU]; exact update_self ..
    have hUrun : U.aborted = false := by rw [← hU]; exact hrun
    have hUreports : U.reports = S.reports := by rw [← hU]; exact List.append_nil _
    have hsecond : step U (.event k (.write answers)) = _ := write_step (t := t) (c := true) hUrun
      (by rw [hslot, huhalf]) (by rw [hslot, hleads.ok.polled, huhalf]; rfl)
      (by rw [hslot]; exact hleads.ok.interest (hub.trans hb) (.inr huhalf)) (by rw [hslot, ht])
    refine ⟨2, by decide, _, run_cons.2 ⟨_, hfirst, run_cons.2 ⟨_, hsecond, rfl⟩⟩, ?_, ?_, ?_⟩
    · show (update U.slot k t k).type = _
      rw [update_self, htype rfl]
    · show (update U.slot k t k).lost = _
      rw [update_self, hlost (hroom.ne_error), hulost (hroom.ne_error)]
    · show U.reports ++ [.close (U.slot k).id (U.slot k).handle] = _
      rw [hUreports, hslot, hleads.id, huh]

end Server

end RoundGame.Skynet.SocketServer
