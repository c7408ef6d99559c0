import RoundGame.Lib.StepSys
import RoundGame.Login.Service

/-!
# Which account a role list is for

One connection, its `GetRoleList` requests not answered yet, and what was returned so far. `m_sAccount` is assigned
when the request is sent, `m_lRoleList` and `m_iStatus` when a response comes, and a response does not say which
account it is for.

- `Inv`: the list of the connection is the one returned last, whatever account it was requested for.
- A connection enters the game with a role of its account as long as each `SelectRole` that picks, under the account
  of the connection, a role of the list returned last comes while that list is one of that account
  (`enters_own_role`). From another account's list each role that is not the connection's own is let through
  (`foreign_role_enters`).
-/

namespace RoundGame.Login

open StepSys

/-- The account of a `GetRoleList` request. -/
def getRoleListAccount : Out → Option String
  | .getRoleList account => some account
  | _ => none

/-- `pending` holds the accounts of the requests not answered, `returned` the lists returned and the accounts they
were requested for, newest first, and `sent` every message of the connection. -/
structure AccountSys where
  conn : CConnection
  pending : List String
  returned : List (String × List Role)
  sent : List Out

namespace AccountSys

def init (iGateAddr : Addr) (iFd : Fd) (iPort : Option Int) : AccountSys :=
  ⟨CConnection.new iGateAddr iFd iPort, [], [], []⟩

/-- `getRoleListReply i mData` answers the request number `i` of those pending. -/
inductive Ev
  | c2gsLoginAccount (sAccount sPwd : String)
  | getRoleListReply (i : Nat) (mData : RoleReply)
  | c2gsSelectRole (sAccount : String) (iPid : Pid)

/-- What a response adds to the lists returned. -/
def recordReply (account : String) (mData : RoleReply) (l : List (String × List Role)) :
    List (String × List Role) :=
  match mData with
  | none => l
  | some roleinfo => (account, roleinfo.getD []) :: l

def step (s : AccountSys) : Ev → Option AccountSys
  | .c2gsLoginAccount sAccount sPwd =>
    let r := s.conn.loginAccount sAccount sPwd
    some { s with conn := r.1, pending := s.pending ++ r.2.filterMap getRoleListAccount, sent := s.sent ++ r.2 }
  | .getRoleListReply i mData =>
    match s.pending[i]? with
    | none => none
    | some account =>
      let r := s.conn.safeCall (s.conn.afterGetRoleList mData)
      some { conn := r.1, pending := s.pending.eraseIdx i, returned := recordReply account mData s.returned,
             sent := s.sent ++ r.2 }
  | .c2gsSelectRole sAccount iPid => some { s with sent := s.sent ++ s.conn.selectRole sAccount iPid }

/-- What a step can do. -/
theorem step_cases {s t : AccountSys} {e : Ev} (hs : step s e = some t) :
    (∃ a w, e = .c2gsLoginAccount a w ∧ t = { s with
      conn := (s.conn.loginAccount a w).1
      pending := s.pending ++ (s.conn.loginAccount a w).2.filterMap getRoleListAccount
      sent := s.sent ++ (s.conn.loginAccount a w).2 }) ∨
    (∃ i mData a, e = .getRoleListReply i mData ∧ s.pending[i]? = some a ∧ t = {
      conn := (s.conn.safeCall (s.conn.afterGetRoleList mData)).1
      pending := s.pending.eraseIdx i
      returned := recordReply a mData s.returned
      sent := s.sent ++ (s.conn.safeCall (s.conn.afterGetRoleList mData)).2 }) ∨
    (∃ a p, e = .c2gsSelectRole a p ∧ t = { s with sent := s.sent ++ s.conn.selectRole a p }) := by
  cases e with
  | c2gsLoginAccount a w => exact Or.inl ⟨a, w, rfl, (Option.some.inj hs).symm⟩
  | getRoleListReply i mData =>
    refine Or.inr (Or.inl ⟨i, mData, ?_⟩)
    simp only [step] at hs
    split at hs
    · cases hs
    · next a hi => exact ⟨a, rfl, hi, (Option.some.inj hs).symm⟩
  | c2gsSelectRole a p => exact Or.inr (Or.inr ⟨a, p, rfl, (Option.some.inj hs).symm⟩)

/-- The roles of a list. -/
def pids (l : List Role) : List Pid := l.map (·.pid)

/-- A role was returned for an account. -/
def Returned (s : AccountSys) (account : String) (iPid : Pid) : Prop :=
  ∃ l, (account, l) ∈ s.returned ∧ iPid ∈ pids l

/-- Each role that entered the game is one gamedb returned for the account it entered with. -/
def OwnRoles (s : AccountSys) : Prop := ∀ p r, .loginPlayer p r ∈ s.sent → s.Returned r.account p

/-! ## The list returned last -/

/-- The connection holds the list returned last. -/
structure Inv (s : AccountSys) : Prop where
  list : s.conn.lRoleList = (s.returned.head?.map Prod.snd).getD []
  status : s.conn.iStatus = .statusRole ↔ s.returned ≠ []

theorem inv_init (a : Addr) (f : Fd) (p : Option Int) : Inv (init a f p) := ⟨rfl, by simp [init, CConnection.new]⟩

theorem inv_step {s t : AccountSys} {e : Ev} (h : Inv s) (hs : step s e = some t) : Inv t := by
  obtain ⟨a, w, -, rfl⟩ | ⟨i, mData, a, -, -, rfl⟩ | ⟨a, p, -, rfl⟩ := step_cases hs
  · rw [CConnection.loginAccount_eq]
    split
    · exact ⟨h.list, h.status⟩
    · exact ⟨h.list, h.status⟩
  · cases mData with
    | none => exact ⟨h.list, h.status⟩
    | some roleinfo => exact ⟨rfl, iff_of_true rfl (List.cons_ne_nil _ _)⟩
  · exact ⟨h.list, h.status⟩

theorem Inv.lRoleList_of_head {s : AccountSys} (h : Inv s) {a : String} {l : List Role}
    (hr : s.returned.head? = some (a, l)) :
    s.conn.lRoleList = l := by
  rw [h.list, hr]
  rfl

/-! ## What a step sends -/

/-- Only `SelectRole` lets a role in: one of the connection's list, under the connection's account. -/
theorem loginPlayer_step {s t : AccountSys} {e : Ev} (hs : step s e = some t) {p : Pid} {r : MRole}
    (hin : .loginPlayer p r ∈ t.sent) : .loginPlayer p r ∈ s.sent ∨
      e = .c2gsSelectRole r.account p ∧ s.conn.sAccount = some r.account ∧ p ∈ pids s.conn.lRoleList := by
  obtain ⟨a, w, -, rfl⟩ | ⟨i, mData, a, -, -, rfl⟩ | ⟨a, q, rfl, rfl⟩ := step_cases hs
  · apply Or.inl
    rw [CConnection.loginAccount_eq] at hin
    split at hin <;> simpa using hin
  · apply Or.inl
    cases mData <;> simpa [CConnection.afterGetRoleList, CConnection.safeCall] using hin
  · rw [List.mem_append, CConnection.selectRole_eq] at hin
    refine hin.imp_right ?_
    intro hout
    split_ifs at hout with hst hacc hmem
    · simp at hout
    · simp at hout
    · obtain ⟨rfl, rfl⟩ : p = q ∧ r = ⟨a, s.conn.iGateAddr, s.conn.iFd, s.conn.iPort⟩ := by simpa using hout
      exact ⟨rfl, not_not.1 hacc, hmem⟩
    · simp at hout

theorem returned_step {s t : AccountSys} {e : Ev} (hs : step s e = some t) {a : String} {p : Pid}
    (h : s.Returned a p) : t.Returned a p := by
  obtain ⟨l, hl, hp⟩ := h
  refine ⟨l, ?_, hp⟩
  obtain ⟨b, w, -, rfl⟩ | ⟨i, mData, b, -, -, rfl⟩ | ⟨b, q, -, rfl⟩ := step_cases hs
  · exact hl
  · cases mData with
    | none => exact hl
    | some roleinfo => exact List.mem_cons_of_mem _ hl
  · exact hl

/-! ## Runs -/

/-- A `SelectRole` that picks, under the account of the connection, a role of the list returned last comes while that
list is one of that account. -/
def ListOwn (s : AccountSys) : Ev → Prop
  | .c2gsSelectRole sAccount iPid =>
    s.conn.sAccount = some sAccount → ∀ r ∈ s.returned.head?, iPid ∈ pids r.2 → r.1 = sAccount
  | _ => True

instance ListOwn.decidable (s : AccountSys) : ∀ e, Decidable (ListOwn s e)
  | .c2gsSelectRole sAccount iPid => inferInstanceAs (Decidable
      (s.conn.sAccount = some sAccount → ∀ r ∈ s.returned.head?, iPid ∈ pids r.2 → r.1 = sAccount))
  | .c2gsLoginAccount _ _ => isTrue trivial
  | .getRoleListReply _ _ => isTrue trivial

theorem ownRoles_step {s t : AccountSys} {e : Ev} (h : Inv s) (ho : OwnRoles s) (hC : ListOwn s e)
    (hs : step s e = some t) : OwnRoles t := by
  intro p r hin
  apply returned_step hs
  rcases loginPlayer_step hs hin with hold | ⟨rfl, hacc, hp⟩
  · exact ho p r hold
  · cases hr : s.returned.head? with
    | none =>
      rw [h.list, hr] at hp
      cases hp
    | some al =>
      obtain ⟨a, l⟩ := al
      rw [h.lRoleList_of_head hr] at hp
      have ha : a = r.account := hC hacc (a, l) hr hp
      exact ⟨l, ha ▸ List.mem_of_mem_head? hr, hp⟩

/-- **A connection enters the game with roles of its account**, in every run in which each role that is picked from
the list returned last, under the account of the connection, is picked from a list of that account. -/
theorem enters_own_role (iGateAddr : Addr) (iFd : Fd) (iPort : Option Int) (es : List Ev)
    (h : Along step ListOwn (init iGateAddr iFd iPort) es) :
    Always step OwnRoles (init iGateAddr iFd iPort) es := by
  have hinit : Inv (init iGateAddr iFd iPort) ∧ OwnRoles (init iGateAddr iFd iPort) :=
    ⟨inv_init _ _ _, fun _ _ hin => by cases hin⟩
  refine (always_of_along (I := fun s => Inv s ∧ OwnRoles s) ?_ hinit h).imp fun _ => And.right
  intro s e t hI hC hs
  exact ⟨inv_step hI.1 hs, ownRoles_step hI.1 hI.2 hC hs⟩

/-- Two accounts, one after the other, each with its own list. -/
theorem enters_own_role_twice : Always step OwnRoles (init 1 5 none)
    [.c2gsLoginAccount "ann" "", .getRoleListReply 0 (some (some [⟨1001, "a", 1⟩])), .c2gsSelectRole "ann" 1001,
     .c2gsLoginAccount "bob" "", .getRoleListReply 0 (some (some [⟨1002, "b", 1⟩])), .c2gsSelectRole "bob" 1002] :=
  enters_own_role 1 5 none _ (by decide)

/-- The condition is exact: after a list of another account, a role of that list that was never returned for the
account of the connection is let through. -/
theorem foreign_role_enters {s : AccountSys} (h : Inv s) {a b : String} {l : List Role} {p : Pid}
    (hacc : s.conn.sAccount = some a) (hr : s.returned.head? = some (b, l)) (hp : p ∈ pids l)
    (hnot : ¬ s.Returned a p) : ∃ t, step s (.c2gsSelectRole a p) = some t ∧ ¬ OwnRoles t := by
  refine ⟨_, rfl, fun ho => hnot ?_⟩
  have hst : s.conn.iStatus = .statusRole := by
    apply h.status.2
    rintro hnil
    rw [hnil] at hr
    cases hr
  refine ho p ⟨a, s.conn.iGateAddr, s.conn.iFd, s.conn.iPort⟩ (List.mem_append_right _ ?_)
  rw [CConnection.selectRole_eq, h.lRoleList_of_head hr]
  have hp' : p ∈ l.map (·.pid) := hp
  simp [hst, hacc, hp']

/-- Account "ann" has role 1001; the connection logs in as "bob" and selects it before the list of "bob" comes. -/
theorem enters_foreign_role : ¬ Always step OwnRoles (init 1 5 none)
    [.c2gsLoginAccount "ann" "", .getRoleListReply 0 (some (some [⟨1001, "a", 1⟩])), .c2gsLoginAccount "bob" "",
     .c2gsSelectRole "bob" 1001] := by
  intro h
  have hlast := (((h.2 _ rfl).2 _ rfl).2 _ rfl).2 _ rfl
  obtain ⟨l, hl, -⟩ := hlast 1001 ⟨"bob", 1, 5, none⟩ (by decide)
  revert hl
  simp [recordReply, init]

end AccountSys

end RoundGame.Login
