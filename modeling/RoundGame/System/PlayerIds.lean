import Mathlib.Data.Int.Order.Basic
import RoundGame.Lib.StepSys
import RoundGame.Lib.WriteAhead
import RoundGame.GameDb.Store
import RoundGame.IdSupply.IdMgr

/-!
# Player ids across crashes

The id supply, gamedb and the services that create players. A new id is saved with a message that nobody waits for,
and returned at once; whoever receives it may insert its row. Messages to gamedb are in transit until they reach its
mailbox, those of the id supply in sending order, and an insert after the `SaveAllId` of its id, which was sent
causally before it. A crash keeps the database only.

- The mailbox and what the id supply has in transit are a queue of a bound stored ahead of its use: `SaveAllId` raises
  the stored id and an insert relies on it (`entry`, `Running`).
- So each row is covered by the stored id in every state, and no id that is returned has a row (`player_ids_sound`).
-/

namespace RoundGame.System

open StepSys WriteAhead
open RoundGame.GameDb (Db)
open RoundGame.IdSupply (CIdMgr IdOut)

/-- Messages to gamedb. -/
inductive DbMsg
  | loadAllId
  | saveAllId (player_id : Int)
  | insertPlayerNameAndPid (name : String) (pid : Pid)
  deriving DecidableEq

/-- The part of the id supply's output that goes to gamedb. -/
def toDbMsg : IdOut → Option DbMsg
  | .loadAllId => some .loadAllId
  | .saveAllId player_id => some (.saveAllId player_id)
  | .respondId _ => none

/-- The id of a response. -/
def respondedId : IdOut → Option Pid
  | .respondId id => some id
  | _ => none

/-- `toGamedb` and `inserts` are in transit to gamedb, `loads` holds the responses to `LoadAllId` and `responses` those
to `GenPlayerId`; `received` are the ids requesters have, `issued` those returned in this incarnation, in order. -/
structure PlayerIds (β : Type) where
  db : Db β
  mgr : CIdMgr
  toGamedb : List DbMsg
  inserts : List (String × Pid)
  mailbox : List DbMsg
  loads : List (Option Int)
  responses : List Pid
  received : List Pid
  issued : List Pid

namespace PlayerIds

variable {β : Type}

/-- The services start over a database: the id supply creates its manager and calls `LoadDb`. -/
def boot (db : Db β) : PlayerIds β :=
  { db := db
    mgr := CIdMgr.new
    toGamedb := match CIdMgr.new.loadDb with
      | .ok out => out.filterMap toDbMsg
      | .error _ => []
    inserts := []
    mailbox := []
    loads := []
    responses := []
    received := []
    issued := [] }

/-- `genPlayerId` is a request reaching the id supply, `receive i` a response reaching its requester, and `insert` a
requester's message to gamedb. `arrive` and `arriveInsert i` put a message into gamedb's mailbox, `handle` is gamedb
taking the oldest one, `loaded` the response to `LoadAllId`, and `crash` includes the restart. -/
inductive Ev
  | genPlayerId
  | receive (i : Nat)
  | insert (name : String) (pid : Pid)
  | arrive
  | arriveInsert (i : Nat)
  | handle
  | loaded
  | crash

variable [DecidableEq β]

/-- The handlers of gamedb. -/
def handle (s : PlayerIds β) : DbMsg → PlayerIds β
  | .loadAllId => { s with loads := s.loads ++ [s.db.loadAllId] }
  | .saveAllId player_id => { s with db := (s.db.write (GameDb.saveAllId player_id)).1 }
  | .insertPlayerNameAndPid name pid => { s with db := (s.db.write (GameDb.insertPlayerNameAndPid name pid)).1 }

def step (s : PlayerIds β) : Ev → Option (PlayerIds β)
  | .genPlayerId =>
    match IdSupply.genPlayerId s.mgr with
    | (mgr, .error _) => some { s with mgr := mgr }
    | (mgr, .ok out) =>
      some { s with mgr := mgr, toGamedb := s.toGamedb ++ out.filterMap toDbMsg,
                    responses := s.responses ++ out.filterMap respondedId,
                    issued := s.issued ++ out.filterMap respondedId }
  | .receive i =>
    match s.responses[i]? with
    | none => none
    | some pid => some { s with responses := s.responses.eraseIdx i, received := pid :: s.received }
  | .insert name pid => if pid ∈ s.received then some { s with inserts := (name, pid) :: s.inserts } else none
  | .arrive =>
    match s.toGamedb with
    | [] => none
    | msg :: q => some { s with toGamedb := q, mailbox := s.mailbox ++ [msg] }
  | .arriveInsert i =>
    match s.inserts[i]? with
    | none => none
    | some (name, pid) =>
      if .saveAllId pid ∈ s.toGamedb then none
      else some { s with inserts := s.inserts.eraseIdx i, mailbox := s.mailbox ++ [.insertPlayerNameAndPid name pid] }
  | .handle =>
    match s.mailbox with
    | [] => none
    | msg :: q => some (handle { s with mailbox := q } msg)
  | .loaded =>
    match s.loads with
    | [] => none
    | mData :: q => some { s with mgr := s.mgr.loaded (mData.map some), loads := q }
  | .crash => some (boot s.db)

/-! ## The queue of saves and inserts -/

/-- What a message to gamedb does to the stored id: a save raises it, an insert relies on it. -/
def entry : DbMsg → Option (Entry Int)
  | .loadAllId => none
  | .saveAllId player_id => some (.raise player_id)
  | .insertPlayerNameAndPid _ pid => some (.rely pid)

abbrev entries (l : List DbMsg) : List (Entry Int) := l.filterMap entry

/-- The ids given to requesters whose inserts, if any, have not reached the mailbox. -/
def given (s : PlayerIds β) : List Pid := s.responses ++ s.received ++ s.inserts.map Prod.snd

/-- The id supply waits for its id: the `LoadAllId` or its response is under way, and nothing else is. -/
structure Loading (s : PlayerIds β) : Prop where
  mgr : s.mgr = CIdMgr.new
  given : s.given = []
  issued : s.issued = []
  load : (s.toGamedb = [.loadAllId] ∧ s.mailbox = [] ∧ s.loads = []) ∨
    (s.toGamedb = [] ∧ s.mailbox = [.loadAllId] ∧ s.loads = []) ∨
    (s.toGamedb = [] ∧ s.mailbox = [] ∧ s.loads = [s.db.loadAllId])

/-- The id supply hands out ids: its saves and the inserts are a queue that gamedb can handle in turn, and each id
given is covered by what is in the mailbox, or its save is in transit. -/
structure Running (s : PlayerIds β) : Prop where
  loading : s.mgr.bLoading = false
  loads : s.loads = []
  noLoad : .loadAllId ∉ s.mailbox ++ s.toGamedb
  ready : Ready s.db.loadAllId (entries s.mailbox ++ entries s.toGamedb)
  bound : ∀ n ∈ last s.db.loadAllId (entries s.mailbox ++ entries s.toGamedb), n ≤ s.mgr.iPlayerId
  given : ∀ pid ∈ s.given, Covers (last s.db.loadAllId (entries s.mailbox)) pid ∨ .saveAllId pid ∈ s.toGamedb
  issued : ∀ pid ∈ s.issued, pid ≤ s.mgr.iPlayerId

structure Inv (s : PlayerIds β) : Prop where
  rows : ∀ d ∈ s.db .player, ∃ pid, d "pid" = some (.num pid) ∧ Covers s.db.loadAllId pid
  increasing : s.issued.Pairwise (· < ·)
  phase : Loading s ∨ Running s

/-- The id supply has its id. -/
theorem Inv.running {s : PlayerIds β} (h : Inv s) (hload : s.mgr.bLoading = false) : Running s := by
  rcases h.phase with hl | hr
  · rw [hl.mgr] at hload
    cases hload
  · exact hr

theorem loading_boot (db : Db β) : Loading (boot db) := ⟨rfl, rfl, rfl, Or.inl ⟨rfl, rfl, rfl⟩⟩

theorem inv_init : Inv (boot (Db.empty : Db β)) where
  rows _ h := by cases h
  increasing := List.Pairwise.nil
  phase := Or.inl (loading_boot _)

/-- A crash keeps the database, and the rows were covered by the stored id. -/
theorem inv_crash {s : PlayerIds β} (h : Inv s) : Inv (boot s.db) :=
  ⟨h.rows, List.Pairwise.nil, Or.inl (loading_boot _)⟩

/-! ## Loading -/

namespace Loading

variable {s : PlayerIds β}

theorem responses (h : Loading s) : s.responses = [] :=
  (List.append_eq_nil_iff.1 (List.append_eq_nil_iff.1 h.given).1).1

theorem received (h : Loading s) : s.received = [] :=
  (List.append_eq_nil_iff.1 (List.append_eq_nil_iff.1 h.given).1).2

theorem inserts (h : Loading s) : s.inserts = [] :=
  List.map_eq_nil_iff.1 (List.append_eq_nil_iff.1 h.given).2

/-- The response to `LoadAllId`, which holds the stored id, ends the loading. -/
theorem loaded (h : Loading s) {mData : Option Int} {q : List (Option Int)} (hq : s.loads = mData :: q) :
    Running { s with mgr := s.mgr.loaded (mData.map some), loads := q } := by
  rcases h.load with ⟨-, -, hl⟩ | ⟨-, -, hl⟩ | ⟨hg, hm, hl⟩
  · rw [hl] at hq; cases hq
  · rw [hl] at hq; cases hq
  · rw [hl] at hq
    obtain ⟨rfl, rfl⟩ := List.cons.inj hq
    have hid : ∀ n ∈ s.db.loadAllId, n ≤ (s.mgr.loaded (s.db.loadAllId.map some)).iPlayerId := by
      intro n hn
      rw [Option.mem_def.1 hn]
      exact le_rfl
    have hgiven : PlayerIds.given { s with mgr := s.mgr.loaded (s.db.loadAllId.map some), loads := [] } = [] := h.given
    refine ⟨rfl, rfl, ?_, ?_, ?_, ?_, ?_⟩
    · simp [hg, hm]
    · simp [hg, hm, Ready]
    · simpa [hg, hm, last] using hid
    · rw [hgiven]
      intro pid hpid
      cases hpid
    · simp [h.issued]

end Loading

/-! ## Running -/

namespace Running

variable {s : PlayerIds β}

/-- A new id is saved, then given. -/
theorem genPlayerId (h : Running s) :
    Running { s with mgr := ⟨s.mgr.iPlayerId + 1, false⟩,
                     toGamedb := s.toGamedb ++ [.saveAllId (s.mgr.iPlayerId + 1)],
                     responses := s.responses ++ [s.mgr.iPlayerId + 1],
                     issued := s.issued ++ [s.mgr.iPlayerId + 1] } := by
  have hle : ∀ n ≤ s.mgr.iPlayerId, n ≤ s.mgr.iPlayerId + 1 := fun n hn => by omega
  refine ⟨rfl, h.loads, ?_, ?_, ?_, ?_, ?_⟩
  · have hno := h.noLoad
    simp only [List.mem_append, List.mem_singleton, not_or] at hno ⊢
    exact ⟨hno.1, hno.2, fun heq => by cases heq⟩
  · rw [entries, entries, List.filterMap_append, ← List.append_assoc]
    exact ready_append.2 ⟨h.ready, fun m hm => hle m (h.bound m hm), trivial⟩
  · intro n hn
    rw [entries, entries, List.filterMap_append, ← List.append_assoc, last_append] at hn
    obtain rfl : s.mgr.iPlayerId + 1 = n := Option.some.inj hn
    exact le_rfl
  · intro pid hpid
    have hpid' : pid ∈ s.given ∨ pid = s.mgr.iPlayerId + 1 := by
      simp only [PlayerIds.given, List.mem_append, List.mem_singleton] at hpid ⊢
      tauto
    rcases hpid' with hold | rfl
    · exact (h.given pid hold).imp_right (List.mem_append_left _)
    · exact Or.inr (List.mem_append_right _ (List.mem_singleton.2 rfl))
  · intro pid hpid
    rcases List.mem_append.1 hpid with hold | hnew
    · exact hle pid (h.issued pid hold)
    · exact (List.mem_singleton.1 hnew).le

/-- A message moves to the mailbox. -/
theorem arrive (h : Running s) {msg : DbMsg} {q : List DbMsg} (hq : s.toGamedb = msg :: q) :
    Running { s with toGamedb := q, mailbox := s.mailbox ++ [msg] } := by
  have hsame : entries (s.mailbox ++ [msg]) ++ entries q = entries s.mailbox ++ entries s.toGamedb := by
    simp only [hq, entries, ← List.filterMap_append, List.append_assoc, List.singleton_append]
  refine ⟨h.loading, h.loads, ?_, ?_, ?_, ?_, h.issued⟩
  · have hno := h.noLoad
    rwa [hq, ← List.singleton_append, ← List.append_assoc] at hno
  · rw [hsame]
    exact h.ready
  · rw [hsame]
    exact h.bound
  · intro pid hpid
    have hready := h.ready
    rw [hq] at hready
    have hpid' := h.given pid hpid
    rw [hq] at hpid'
    cases msg with
    | loadAllId => exact absurd (List.mem_append_right _ (hq ▸ List.mem_cons_self)) h.noLoad
    | saveAllId n =>
      have hraise : ∀ m ∈ last s.db.loadAllId (entries s.mailbox), m ≤ n := (ready_append.1 hready).2.1
      have hlast : last s.db.loadAllId (entries (s.mailbox ++ [.saveAllId n])) = some n := by
        rw [entries, List.filterMap_append, last_append]
        rfl
      rw [hlast]
      rcases hpid' with hc | hin
      · exact Or.inl (hc.raise hraise)
      · rcases List.mem_cons.1 hin with heq | hin
        · obtain rfl := DbMsg.saveAllId.inj heq
          exact Or.inl (covers_self _)
        · exact Or.inr hin
    | insertPlayerNameAndPid name p =>
      have hlast : last s.db.loadAllId (entries (s.mailbox ++ [.insertPlayerNameAndPid name p])) =
          last s.db.loadAllId (entries s.mailbox) := by
        rw [entries, List.filterMap_append, last_append]
        rfl
      rw [hlast]
      refine hpid'.imp_right ?_
      intro hin
      rcases List.mem_cons.1 hin with heq | hin
      · cases heq
      · exact hin

/-- An insert moves to the mailbox when the save of its id is no longer in transit. -/
theorem arriveInsert (h : Running s) {i : Nat} {name : String} {pid : Pid} (hi : s.inserts[i]? = some (name, pid))
    (hsave : .saveAllId pid ∉ s.toGamedb) :
    Running { s with inserts := s.inserts.eraseIdx i,
                     mailbox := s.mailbox ++ [.insertPlayerNameAndPid name pid] } := by
  have hpid : pid ∈ s.given :=
    List.mem_append_right _ (List.mem_map.2 ⟨(name, pid), List.mem_of_getElem? hi, rfl⟩)
  have hcov : Covers (last s.db.loadAllId (entries s.mailbox)) pid := (h.given pid hpid).resolve_right hsave
  have hent : entries (s.mailbox ++ [.insertPlayerNameAndPid name pid]) = entries s.mailbox ++ [.rely pid] := by
    rw [entries, List.filterMap_append]
    rfl
  refine ⟨h.loading, h.loads, ?_, ?_, ?_, ?_, h.issued⟩
  · have hno := h.noLoad
    simp only [List.mem_append, List.mem_singleton, not_or] at hno ⊢
    exact ⟨⟨hno.1, fun heq => by cases heq⟩, hno.2⟩
  · rw [hent, List.append_assoc]
    exact ready_insert_rely h.ready hcov
  · rw [hent, List.append_assoc, last_append]
    have hb := h.bound
    rwa [last_append] at hb
  · intro p hp
    rw [hent, last_append]
    apply h.given p
    simp only [PlayerIds.given, List.mem_append, List.mem_map] at hp ⊢
    refine hp.imp_right fun ⟨x, hx, hxp⟩ => ⟨x, List.mem_of_mem_eraseIdx hx, hxp⟩

/-- An id that is given to a requester stays given. -/
theorem of_given (h : Running s) {responses received : List Pid} {inserts : List (String × Pid)}
    (hg : ∀ p ∈ responses ++ received ++ inserts.map Prod.snd, p ∈ s.given) :
    Running { s with responses := responses, received := received, inserts := inserts } :=
  ⟨h.loading, h.loads, h.noLoad, h.ready, h.bound, fun p hp => h.given p (hg p hp), h.issued⟩

end Running

/-! ## gamedb handles a message -/

/-- The message is handled while running: the queue is one shorter, and ready from the new stored id on. -/
theorem Running.handle {s : PlayerIds β} (h : Running s) {msg : DbMsg} {q : List DbMsg} (hq : s.mailbox = msg :: q) :
    Running (handle { s with mailbox := q } msg) := by
  have hno := h.noLoad
  have hready := h.ready
  have hbound := h.bound
  have hgiven := h.given
  rw [hq] at hno hready hbound hgiven
  have hno' : .loadAllId ∉ q ++ s.toGamedb := fun hin => hno (List.mem_cons_of_mem _ hin)
  cases msg with
  | loadAllId => exact absurd List.mem_cons_self hno
  | saveAllId n =>
    refine ⟨h.loading, h.loads, hno', ?_, ?_, ?_, h.issued⟩
    · simp only [PlayerIds.handle, Db.loadAllId_saveAllId]
      exact hready.2
    · simp only [PlayerIds.handle, Db.loadAllId_saveAllId]
      exact hbound
    · simp only [PlayerIds.handle, Db.loadAllId_saveAllId]
      exact hgiven
  | insertPlayerNameAndPid name pid =>
    have hsame := Db.loadAllId_insertPlayerNameAndPid s.db name pid
    refine ⟨h.loading, h.loads, hno', ?_, ?_, ?_, h.issued⟩
    · simp only [PlayerIds.handle, hsame]
      exact hready.2
    · simp only [PlayerIds.handle, hsame]
      exact hbound
    · simp only [PlayerIds.handle, hsame]
      exact hgiven

/-- The rows stay covered: a save raises the stored id, and an inserted row is covered when its turn comes. -/
theorem Running.rows_handle {s : PlayerIds β} (h : Running s) {msg : DbMsg} {q : List DbMsg}
    (hq : s.mailbox = msg :: q)
    (hrows : ∀ d ∈ s.db .player, ∃ pid, d "pid" = some (.num pid) ∧ Covers s.db.loadAllId pid) :
    ∀ d ∈ (PlayerIds.handle s msg).db .player, ∃ pid, d "pid" = some (.num pid) ∧
      Covers (PlayerIds.handle s msg).db.loadAllId pid := by
  have hready := h.ready
  rw [hq] at hready
  intro d hd
  cases msg with
  | loadAllId => exact hrows d hd
  | saveAllId n =>
    have hd' : d ∈ s.db .player := by
      simp only [PlayerIds.handle, Db.player_saveAllId] at hd
      exact hd
    obtain ⟨pid, hpid, hcov⟩ := hrows d hd'
    refine ⟨pid, hpid, ?_⟩
    simp only [PlayerIds.handle, Db.loadAllId_saveAllId]
    exact hcov.raise hready.1
  | insertPlayerNameAndPid name p =>
    have hsame := Db.loadAllId_insertPlayerNameAndPid s.db name p
    simp only [PlayerIds.handle, hsame]
    rcases Db.mem_insertPlayerNameAndPid.1 hd with hold | ⟨-, rfl⟩
    · exact hrows d hold
    · exact ⟨p, rfl, hready.1⟩

theorem inv_handle {s : PlayerIds β} (h : Inv s) {msg : DbMsg} {q : List DbMsg} (hq : s.mailbox = msg :: q) :
    Inv (handle { s with mailbox := q } msg) := by
  rcases h.phase with hl | hr
  · rcases hl.load with ⟨-, hm, -⟩ | ⟨hg, hm, hlo⟩ | ⟨-, hm, -⟩
    · rw [hm] at hq; cases hq
    · rw [hm] at hq
      obtain ⟨rfl, rfl⟩ := List.cons.inj hq
      refine ⟨h.rows, h.increasing, Or.inl ⟨hl.mgr, hl.given, hl.issued, Or.inr (Or.inr ⟨hg, rfl, ?_⟩)⟩⟩
      simp [handle, hlo]
    · rw [hm] at hq; cases hq
  · refine ⟨?_, ?_, Or.inr (hr.handle hq)⟩
    · cases msg with
      | loadAllId => exact hr.rows_handle hq h.rows
      | saveAllId n => exact hr.rows_handle hq h.rows
      | insertPlayerNameAndPid name p => exact hr.rows_handle hq h.rows
    · cases msg <;> exact h.increasing

/-! ## Steps -/

/-- A `GenPlayerId` request is refused while loading, and otherwise the next id is saved and returned. -/
theorem genPlayerId_step {s t : PlayerIds β} (hs : step s .genPlayerId = some t) :
    (s.mgr.bLoading = true ∧ t = s) ∨
      (s.mgr.bLoading = false ∧ t = { s with
        mgr := ⟨s.mgr.iPlayerId + 1, false⟩
        toGamedb := s.toGamedb ++ [.saveAllId (s.mgr.iPlayerId + 1)]
        responses := s.responses ++ [s.mgr.iPlayerId + 1]
        issued := s.issued ++ [s.mgr.iPlayerId + 1] }) := by
  simp only [step, IdSupply.genPlayerId_eq] at hs
  cases hload : s.mgr.bLoading with
  | true =>
    simp only [hload, if_true] at hs
    exact Or.inl ⟨rfl, (Option.some.inj hs).symm⟩
  | false =>
    simp only [hload, Bool.false_eq_true, if_false] at hs
    exact Or.inr ⟨rfl, (Option.some.inj hs).symm⟩

theorem inv_genPlayerId {s t : PlayerIds β} (h : Inv s) (hs : step s .genPlayerId = some t) : Inv t := by
  obtain ⟨-, rfl⟩ | ⟨hload, rfl⟩ := genPlayerId_step hs
  · exact h
  · have hr : Running s := h.running hload
    refine ⟨h.rows, ?_, Or.inr hr.genPlayerId⟩
    refine List.pairwise_append.2 ⟨h.increasing, List.pairwise_singleton _ _, ?_⟩
    intro p hp n hn
    rw [List.mem_singleton.1 hn]
    exact Int.lt_add_one_of_le (hr.issued p hp)

theorem inv_receive {s t : PlayerIds β} {i : Nat} (h : Inv s) (hs : step s (.receive i) = some t) : Inv t := by
  simp only [step] at hs
  split at hs
  · cases hs
  · next pid hi =>
    obtain rfl := Option.some.inj hs
    have hmem := List.mem_of_getElem? hi
    refine ⟨h.rows, h.increasing, h.phase.imp (fun hl => ?_) fun hr => hr.of_given fun p hp => ?_⟩
    · rw [hl.responses] at hmem
      cases hmem
    · simp only [given, List.mem_append, List.mem_cons] at hp ⊢
      rcases hp with (hp | rfl | hp) | hp
      · exact Or.inl (Or.inl (List.mem_of_mem_eraseIdx hp))
      · exact Or.inl (Or.inl hmem)
      · exact Or.inl (Or.inr hp)
      · exact Or.inr hp

theorem inv_insert {s t : PlayerIds β} {name : String} {pid : Pid} (h : Inv s)
    (hs : step s (.insert name pid) = some t) : Inv t := by
  simp only [step] at hs
  split at hs
  · next hmem =>
    obtain rfl := Option.some.inj hs
    refine ⟨h.rows, h.increasing, h.phase.imp (fun hl => ?_) fun hr => hr.of_given fun p hp => ?_⟩
    · rw [hl.received] at hmem
      cases hmem
    · simp only [given, List.mem_append, List.map_cons, List.mem_cons] at hp ⊢
      rcases hp with hp | rfl | hp
      · exact Or.inl hp
      · exact Or.inl (Or.inr hmem)
      · exact Or.inr hp
  · cases hs

theorem inv_step {s t : PlayerIds β} {e : Ev} (h : Inv s) (hs : step s e = some t) : Inv t := by
  cases e with
  | genPlayerId => exact inv_genPlayerId h hs
  | receive i => exact inv_receive h hs
  | insert name pid => exact inv_insert h hs
  | arrive =>
    simp only [step] at hs
    split at hs
    · cases hs
    · next msg q hq =>
      obtain rfl := Option.some.inj hs
      refine ⟨h.rows, h.increasing, h.phase.imp (fun hl => ?_) fun hr => hr.arrive hq⟩
      rcases hl.load with ⟨hg, hm, hlo⟩ | ⟨hg, -, -⟩ | ⟨hg, -, -⟩
      · rw [hg] at hq
        obtain ⟨rfl, rfl⟩ := List.cons.inj hq
        exact ⟨hl.mgr, hl.given, hl.issued, Or.inr (Or.inl ⟨rfl, by simp [hm], hlo⟩)⟩
      · rw [hg] at hq; cases hq
      · rw [hg] at hq; cases hq
  | arriveInsert i =>
    simp only [step] at hs
    split at hs
    · cases hs
    · next name pid hi =>
      split at hs
      · cases hs
      · next hsave =>
        obtain rfl := Option.some.inj hs
        refine ⟨h.rows, h.increasing, h.phase.imp (fun hl => ?_) fun hr => hr.arriveInsert hi hsave⟩
        rw [hl.inserts] at hi
        cases hi
  | handle =>
    simp only [step] at hs
    split at hs
    · cases hs
    · next msg q hq =>
      obtain rfl := Option.some.inj hs
      exact inv_handle h hq
  | loaded =>
    simp only [step] at hs
    split at hs
    · cases hs
    · next mData q hq =>
      obtain rfl := Option.some.inj hs
      refine ⟨h.rows, h.increasing, Or.inr ?_⟩
      rcases h.phase with hl | hr
      · exact hl.loaded hq
      · rw [hr.loads] at hq
        cases hq
  | crash =>
    obtain rfl := Option.some.inj hs
    exact inv_crash h

/-! ## The ids -/

/-- Rows are covered by the stored id, so there is none while no id is stored; the ids returned in this incarnation
are increasing, and there is none while loading; and an id that would be returned now has no row. -/
structure IdsOk (s : PlayerIds β) : Prop where
  rows : ∀ d ∈ s.db .player, ∃ pid n, d "pid" = some (.num pid) ∧ s.db.loadAllId = some n ∧ pid ≤ n
  increasing : s.issued.Pairwise (· < ·)
  loading : s.mgr.bLoading = true → s.issued = []
  fresh : ∀ t pid, step s .genPlayerId = some t → t.issued = s.issued ++ [pid] → ¬ s.db.HasRow pid

theorem Inv.idsOk {s : PlayerIds β} (h : Inv s) : IdsOk s := by
  refine ⟨?_, h.increasing, ?_, ?_⟩
  · intro d hd
    obtain ⟨pid, hpid, n, hn, hle⟩ := h.rows d hd
    exact ⟨pid, n, hpid, hn, hle⟩
  · intro hload
    rcases h.phase with hl | hr
    · exact hl.issued
    · rw [hr.loading] at hload
      cases hload
  · intro t pid hs hnew
    obtain ⟨-, rfl⟩ | ⟨hload, rfl⟩ := genPlayerId_step hs
    · simp at hnew
    · obtain rfl : s.mgr.iPlayerId + 1 = pid := List.head_eq_of_cons_eq (List.append_cancel_left hnew)
      have hr : Running s := h.running hload
      -- a row is covered by the stored id, which the queue raises up to the counter at most
      rintro ⟨d, hd, hpid⟩
      obtain ⟨p, hp, hcov⟩ := h.rows d hd
      have heq : s.mgr.iPlayerId + 1 = p := GameDb.Val.num.inj (Option.some.inj (hpid.symm.trans hp))
      have hle := (covers_last hr.ready hcov).le hr.bound
      rw [← heq] at hle
      exact absurd hle (Int.not_le.2 (Int.lt_succ _))

/-- **Player ids survive crashes**: in every state of every run from an empty database. -/
theorem player_ids_sound (es : List Ev) : Always step IdsOk (boot (Db.empty : Db β)) es :=
  (always_of_inv inv_step inv_init es).imp fun _ => Inv.idsOk

end PlayerIds

end RoundGame.System
