import RoundGame.Lib.StepSys
import RoundGame.Login.Service
import RoundGame.GameDb.Store
import RoundGame.IdSupply.IdMgr

/-!
# Creating a role

Login, the id supply and gamedb, with the messages of a role creation in flight; they are delivered in any order. A
request passes the role limit, gets an id, inserts its row, and then the role list of the connection is saved.

- No request passes the limit: `ValidCreateRole` raises there (`CConnection.createRole_eq`). So only role lists are
  ever read, and the database stays as it was (`Inv`).
- Hence `CreateRole` answers as it should iff it is never called that far (`role_creation_iff`).
-/

namespace RoundGame.System

open StepSys
open RoundGame.GameDb (Db)
open RoundGame.IdSupply (CIdMgr IdOut)
open RoundGame.Login (ConnObjs LoginEv Out LoginCode RoleReply maxRoleLimit)

/-- Messages between the three services; `iFd` is the socket the callback finds its connection by, and `account` in a
message of a creation is the account of the request. -/
inductive RoleMsg
  | getRoleList (iFd : Fd) (account : String)
  | roleList (iFd : Fd) (mData : RoleReply)
  | genPlayerId (iFd : Fd) (account sName : String) (iIcon : Int)
  | playerId (iFd : Fd) (account sName : String) (iIcon : Int) (iPid : Pid)
  | insertPlayerNameAndPid (iFd : Fd) (account sName : String) (iIcon : Int) (iPid : Pid)
  | inserted (iFd : Fd) (account sName : String) (iIcon : Int) (iPid : Pid) (success : Bool)
  | saveRoleList (account : Option String) (roleinfo : List Role)
  | saveAllId (player_id : Int)

/-- The message a connection sends to idsupply or gamedb, while it works for `account`. -/
def toRoleMsg (iFd : Fd) (account : String) : Out → Option RoleMsg
  | .getRoleList account' => some (.getRoleList iFd account')
  | .genPlayerId name icon => some (.genPlayerId iFd account name icon)
  | .insertPlayerNameAndPid name icon pid => some (.insertPlayerNameAndPid iFd account name icon pid)
  | .saveRoleList roleinfo account' => some (.saveRoleList account' roleinfo)
  | _ => none

/-- What the id supply sends for a `GenPlayerId` request. -/
def idMsg (iFd : Fd) (account sName : String) (iIcon : Int) : IdOut → Option RoleMsg
  | .respondId id => some (.playerId iFd account sName iIcon id)
  | .saveAllId player_id => some (.saveAllId player_id)
  | .loadAllId => none

/-- The roles stored for an account. -/
def storedRoles {β : Type} [DecidableEq β] (db : Db β) (account : String) : List Role :=
  ((db.getRoleList account).getD none).getD []

/-- A `CreateRole` of a connection that is logged in to the account and has its list: the number of roles stored for
the account then, the arguments, and the result. -/
structure Answer where
  roles : Nat
  sName : String
  iIcon : Int
  result : Except String (List Out)

/-- Below the limit the request is accepted, and otherwise it is answered with `LOGIN_ROLE_LIMIT`. -/
def Answer.Right (a : Answer) : Prop :=
  a.result = .ok (if a.roles < maxRoleLimit then [.genPlayerId a.sName a.iIcon] else [.gs2cLoginError .loginRoleLimit])

/-- `inserted` lists the rows inserted, with the account of the request, and `answers` the requests answered. -/
structure RoleSys (β : Type) where
  gateMgr : ConnObjs
  idMgr : CIdMgr
  db : Db β
  inFlight : List RoleMsg
  inserted : List (String × Role)
  answers : List Answer

namespace RoleSys

variable {β : Type}

def init (idMgr : CIdMgr) (db : Db β) : RoleSys β := ⟨fun _ => none, idMgr, db, [], [], []⟩

/-- What reaches login from outside, and `deliver i`: the message number `i` in flight reaches its service. -/
inductive Ev
  | opened (iAddr : Addr) (iFd : Fd) (iPort : Option Int)
  | closed (iFd : Fd)
  | c2gsLoginAccount (iFd : Fd) (sAccount sPwd : String)
  | c2gsCreateRole (iFd : Fd) (sAccount sName : String) (iIcon : Int)
  | c2gsSelectRole (iFd : Fd) (sAccount : String) (iPid : Pid)
  | deliver (i : Nat)

/-- Login handles an event that comes in over `iFd`, for `account`. -/
def login (s : RoleSys β) (iFd : Fd) (account : String) (e : LoginEv) : RoleSys β :=
  let r := s.gateMgr.handle e
  { s with gateMgr := r.1, inFlight := s.inFlight ++ r.2.filterMap (toRoleMsg iFd account) }

variable [DecidableEq β]

/-- The request reaches the role limit: the connection is logged in to the account and has its list. -/
def ReachesLimit (s : RoleSys β) (iFd : Fd) (sAccount : String) : Prop :=
  ∃ c ∈ s.gateMgr.getConnection iFd, c.sAccount = some sAccount ∧ c.iStatus = .statusRole

instance (s : RoleSys β) (iFd : Fd) (sAccount : String) : Decidable (ReachesLimit s iFd sAccount) :=
  inferInstanceAs (Decidable (∃ c ∈ s.gateMgr.getConnection iFd, c.sAccount = some sAccount ∧ c.iStatus = .statusRole))

/-- The answers after a `CreateRole`. -/
def recordAnswer (s : RoleSys β) (iFd : Fd) (sAccount sName : String) (iIcon : Int) : List Answer :=
  match s.gateMgr.getConnection iFd with
  | some c =>
    if c.sAccount = some sAccount ∧ c.iStatus = .statusRole then
      ⟨(storedRoles s.db sAccount).length, sName, iIcon, c.createRole sAccount sName iIcon⟩ :: s.answers
    else s.answers
  | none => s.answers

/-- A message reaches its service. -/
def deliver (s : RoleSys β) : RoleMsg → RoleSys β
  | .getRoleList iFd account => { s with inFlight := s.inFlight ++ [.roleList iFd (s.db.getRoleList account)] }
  | .roleList iFd mData => s.login iFd "" (.afterGetRoleList iFd mData)
  | .genPlayerId iFd account sName iIcon =>
    match IdSupply.genPlayerId s.idMgr with
    | (idMgr, .error _) => { s with idMgr := idMgr }
    | (idMgr, .ok out) =>
      { s with idMgr := idMgr, inFlight := s.inFlight ++ out.filterMap (idMsg iFd account sName iIcon) }
  | .playerId iFd account sName iIcon iPid => s.login iFd account (.afterGetPlayerId iFd sName iIcon iPid)
  | .insertPlayerNameAndPid iFd account sName iIcon iPid =>
    let r := s.db.write (GameDb.insertPlayerNameAndPid sName iPid)
    { s with db := r.1, inFlight := s.inFlight ++ [.inserted iFd account sName iIcon iPid r.2],
             inserted := if r.2 then (account, ⟨iPid, sName, iIcon⟩) :: s.inserted else s.inserted }
  | .inserted iFd account sName iIcon iPid success =>
    s.login iFd account (.afterInsertNameAndPid iFd sName iIcon iPid success)
  | .saveRoleList account roleinfo => { s with db := (s.db.write (GameDb.saveRoleList account roleinfo)).1 }
  | .saveAllId player_id => { s with db := (s.db.write (GameDb.saveAllId player_id)).1 }

def step (s : RoleSys β) : Ev → Option (RoleSys β)
  | .opened iAddr iFd iPort => some (s.login iFd "" (.opened iAddr iFd iPort))
  | .closed iFd => some (s.login iFd "" (.closed iFd))
  | .c2gsLoginAccount iFd sAccount sPwd => some (s.login iFd sAccount (.c2gsLoginAccount iFd sAccount sPwd))
  | .c2gsCreateRole iFd sAccount sName iIcon =>
    some { s.login iFd sAccount (.c2gsCreateRole iFd sAccount sName iIcon) with
           answers := s.recordAnswer iFd sAccount sName iIcon }
  | .c2gsSelectRole iFd sAccount iPid => some (s.login iFd sAccount (.c2gsSelectRole iFd sAccount iPid))
  | .deliver i =>
    match s.inFlight[i]? with
    | none => none
    | some msg => some (deliver { s with inFlight := s.inFlight.eraseIdx i } msg)

/-! ## Only role lists are read -/

/-- A message of the reading of a role list. -/
def Reads : RoleMsg → Prop
  | .getRoleList _ _ => True
  | .roleList _ _ => True
  | _ => False

/-- Outputs that start nothing but the reading of a role list. -/
def ReadsOnly (out : List Out) : Prop := ∀ o ∈ out, ∀ f a, ∀ msg ∈ toRoleMsg f a o, Reads msg

theorem onConn_readsOnly {m : ConnObjs} {iFd : Fd} {f : Login.CConnection → Login.CConnection × List Out}
    (hf : ∀ c, ReadsOnly (f c).2) : ReadsOnly (m.onConn iFd f).2 := by
  unfold ConnObjs.onConn ConnObjs.getConnection
  cases m iFd with
  | none => exact fun o ho => by cases ho
  | some c => exact hf c

theorem loginAccount_readsOnly (c : Login.CConnection) (a p : String) : ReadsOnly (c.loginAccount a p).2 := by
  rw [Login.CConnection.loginAccount_eq]
  split <;> simp [ReadsOnly, toRoleMsg, Reads]

/-- No request passes the limit: it raises, or is answered with an error code. -/
theorem createRole_readsOnly (c : Login.CConnection) (a n : String) (i : Int) :
    ReadsOnly (c.safeCall ((c.createRole a n i).map fun out => (c, out))).2 := by
  rw [Login.CConnection.createRole_eq]
  split_ifs <;> simp [Except.map, Login.CConnection.safeCall, ReadsOnly, toRoleMsg]

theorem selectRole_readsOnly (c : Login.CConnection) (a : String) (p : Pid) : ReadsOnly (c.selectRole a p) := by
  rw [Login.CConnection.selectRole_eq]
  split_ifs <;> simp [ReadsOnly, toRoleMsg]

theorem afterGetRoleList_readsOnly (c : Login.CConnection) (r : RoleReply) :
    ReadsOnly (c.safeCall (c.afterGetRoleList r)).2 := by
  cases r <;> simp [Login.CConnection.afterGetRoleList, Login.CConnection.safeCall, ReadsOnly, toRoleMsg]

theorem addConnection_readsOnly (m : ConnObjs) (c : Login.CConnection) : ReadsOnly (m.addConnection c).2 := by
  simp [ConnObjs.addConnection, Login.CConnection.forward, ReadsOnly, toRoleMsg]

theorem removeConnection_readsOnly (m : ConnObjs) (f : Fd) : ReadsOnly (m.removeConnection f).2 := by
  unfold ConnObjs.removeConnection
  split <;> simp [Login.CConnection.onRemove, ReadsOnly, toRoleMsg]

/-- The database and the rows inserted are as at the start, and only role lists are being read. -/
structure Inv (db : Db β) (s : RoleSys β) : Prop where
  db : s.db = db
  inserted : s.inserted = []
  inFlight : ∀ msg ∈ s.inFlight, Reads msg

namespace Inv

variable {db : Db β} {s : RoleSys β}

omit [DecidableEq β] in
theorem login (h : Inv db s) (f : Fd) (a : String) {e : LoginEv} (he : ReadsOnly (s.gateMgr.handle e).2) :
    Inv db (s.login f a e) := by
  refine ⟨h.db, h.inserted, ?_⟩
  intro msg hmsg
  rcases List.mem_append.1 hmsg with hold | hnew
  · exact h.inFlight msg hold
  · obtain ⟨o, ho, hmsg⟩ := List.mem_filterMap.1 hnew
    exact he o ho f a msg hmsg

omit [DecidableEq β] in
theorem eraseIdx (h : Inv db s) (i : Nat) : Inv db { s with inFlight := s.inFlight.eraseIdx i } :=
  ⟨h.db, h.inserted, fun msg hmsg => h.inFlight msg (List.mem_of_mem_eraseIdx hmsg)⟩

theorem deliver (h : Inv db s) {msg : RoleMsg} (hmsg : Reads msg) : Inv db (s.deliver msg) := by
  cases msg with
  | getRoleList f a =>
    refine ⟨h.db, h.inserted, ?_⟩
    intro m hm
    rcases List.mem_append.1 hm with hold | hnew
    · exact h.inFlight m hold
    · obtain rfl := List.mem_singleton.1 hnew
      exact trivial
  | roleList f r => exact h.login f "" (onConn_readsOnly fun c => afterGetRoleList_readsOnly c r)
  | genPlayerId f a n i => exact hmsg.elim
  | playerId f a n i p => exact hmsg.elim
  | insertPlayerNameAndPid f a n i p => exact hmsg.elim
  | inserted f a n i p ok => exact hmsg.elim
  | saveRoleList a l => exact hmsg.elim
  | saveAllId n => exact hmsg.elim

end Inv

theorem inv_step {db : Db β} {s t : RoleSys β} {e : Ev} (h : Inv db s) (hs : step s e = some t) : Inv db t := by
  cases e with
  | opened a f p =>
    obtain rfl := Option.some.inj hs
    exact h.login f "" (addConnection_readsOnly _ _)
  | closed f =>
    obtain rfl := Option.some.inj hs
    exact h.login f "" (removeConnection_readsOnly _ _)
  | c2gsLoginAccount f a p =>
    obtain rfl := Option.some.inj hs
    exact h.login f a (onConn_readsOnly fun c => loginAccount_readsOnly c a p)
  | c2gsCreateRole f a n i =>
    obtain rfl := Option.some.inj hs
    have hl := h.login f a (e := .c2gsCreateRole f a n i) (onConn_readsOnly fun c => createRole_readsOnly c a n i)
    exact ⟨hl.db, hl.inserted, hl.inFlight⟩
  | c2gsSelectRole f a p =>
    obtain rfl := Option.some.inj hs
    exact h.login f a (onConn_readsOnly fun c => selectRole_readsOnly c a p)
  | deliver i =>
    simp only [step] at hs
    split at hs
    · cases hs
    · next msg hi =>
      obtain rfl := Option.some.inj hs
      exact (h.eraseIdx i).deliver (h.inFlight msg (List.mem_of_getElem? hi))

/-! ## The answers -/

/-- Each request is answered by the number of roles stored, no more roles are stored than the limit, and with nothing
in flight those stored for an account are its roles at the start and the rows inserted for it. -/
structure RolesOk (db : Db β) (s : RoleSys β) : Prop where
  answers : ∀ a ∈ s.answers, a.Right
  limit : ∀ account, (storedRoles s.db account).length ≤ maxRoleLimit
  exact : s.inFlight = [] → ∀ account, (storedRoles s.db account).Perm
    (storedRoles db account ++ (s.inserted.filter fun x => x.1 = account).map Prod.snd)

/-- No request of the step reaches the role limit. -/
def NoCreate (s : RoleSys β) : Ev → Prop
  | .c2gsCreateRole iFd sAccount _ _ => ¬ ReachesLimit s iFd sAccount
  | _ => True

instance (s : RoleSys β) : ∀ e, Decidable (NoCreate s e)
  | .c2gsCreateRole iFd sAccount _ _ => inferInstanceAs (Decidable (¬ ReachesLimit s iFd sAccount))
  | .opened _ _ _ => isTrue trivial
  | .closed _ => isTrue trivial
  | .c2gsLoginAccount _ _ _ => isTrue trivial
  | .c2gsSelectRole _ _ _ => isTrue trivial
  | .deliver _ => isTrue trivial

/-- As long as the answers are right, everything is. -/
theorem rolesOk_iff {db : Db β} (hdb : ∀ account, (storedRoles db account).length ≤ maxRoleLimit) {s : RoleSys β}
    (h : Inv db s) : RolesOk db s ↔ ∀ a ∈ s.answers, a.Right := by
  refine ⟨RolesOk.answers, fun ha => ⟨ha, ?_, ?_⟩⟩
  · rw [h.db]
    exact hdb
  · intro _ account
    rw [h.db, h.inserted]
    simp

/-- The answers stay right iff the request does not reach the limit, where it raises. -/
theorem recordAnswer_right {s : RoleSys β} (h : ∀ a ∈ s.answers, a.Right) (f : Fd) (a n : String) (i : Int) :
    (∀ x ∈ s.recordAnswer f a n i, x.Right) ↔ ¬ ReachesLimit s f a := by
  unfold recordAnswer ReachesLimit
  cases hc : s.gateMgr.getConnection f with
  | none => simpa using h
  | some c =>
    by_cases hok : c.sAccount = some a ∧ c.iStatus = .statusRole
    · simp only [hok, and_self, if_true, Option.mem_def, Option.some.injEq, exists_eq_left', not_true, iff_false]
      intro hall
      have hright := hall _ List.mem_cons_self
      rw [Answer.Right, Login.CConnection.createRole_eq] at hright
      simp [hok.1, hok.2] at hright
    · simp only [Option.mem_def, Option.some.injEq, exists_eq_left', hok, not_false_eq_true, iff_true]
      exact h

theorem deliver_answers (s : RoleSys β) (msg : RoleMsg) : (s.deliver msg).answers = s.answers := by
  cases msg with
  | genPlayerId f a n i =>
    simp only [deliver]
    split <;> rfl
  | _ => rfl

theorem rolesOk_step {db : Db β} (hdb : ∀ account, (storedRoles db account).length ≤ maxRoleLimit) {s t : RoleSys β}
    {e : Ev} (h : Inv db s) (hr : RolesOk db s) (hs : step s e = some t) : RolesOk db t ↔ NoCreate s e := by
  rw [rolesOk_iff hdb (inv_step h hs)]
  cases e with
  | c2gsCreateRole f a n i =>
    obtain rfl := Option.some.inj hs
    exact recordAnswer_right hr.answers f a n i
  | opened a f p => obtain rfl := Option.some.inj hs; exact iff_of_true hr.answers trivial
  | closed f => obtain rfl := Option.some.inj hs; exact iff_of_true hr.answers trivial
  | c2gsLoginAccount f a p => obtain rfl := Option.some.inj hs; exact iff_of_true hr.answers trivial
  | c2gsSelectRole f a p => obtain rfl := Option.some.inj hs; exact iff_of_true hr.answers trivial
  | deliver i =>
    simp only [step] at hs
    split at hs
    · cases hs
    · next msg hi =>
      obtain rfl := Option.some.inj hs
      refine iff_of_true ?_ trivial
      rw [deliver_answers]
      exact hr.answers

/-- **Role creation works in a run iff no request of the run reaches the role limit**, from any database that
respects it. -/
theorem role_creation_iff (idMgr : CIdMgr) (db : Db β)
    (hdb : ∀ account, (storedRoles db account).length ≤ maxRoleLimit) (es : List Ev) :
    Always step (RolesOk db) (init idMgr db) es ↔ Along step NoCreate (init idMgr db) es := by
  have hinit : Inv db (init idMgr db) := ⟨rfl, rfl, fun _ h => by cases h⟩
  have hok : RolesOk db (init idMgr db) := (rolesOk_iff hdb hinit).2 fun _ h => by cases h
  exact always_iff_along_of_inv inv_step (rolesOk_step hdb) hinit hok es

/-- A database with one account, which has one role. -/
def oneAccount : Db Unit := (Db.empty.write (GameDb.saveRoleList (some "ann") [⟨1001, "a", 1⟩])).1

theorem oneAccount_limit (account : String) : (storedRoles oneAccount account).length ≤ maxRoleLimit := by
  by_cases h : account = "ann"
  · subst h
    decide
  · have hnone : oneAccount.getRoleList account = none := by
      have hsel : ¬ ("ann" = account) := fun heq => h heq.symm
      simp [oneAccount, Db.getRoleList, Db.findOne, DocStore.find, GameDb.Cond.sel, Db.write, Db.writeColl,
        GameDb.saveRoleList, GameDb.Write.table, DocStore.update, Db.empty, DocStore.insert,
        GameDb.Cond.base, DocStore.Fits, hsel]
    rw [storedRoles, hnone]
    decide

/-- A role list is read, and a request for another account is refused before the limit. -/
theorem role_creation_refused : Always step (RolesOk oneAccount) (init ⟨1001, false⟩ oneAccount)
    [.opened 1 5 none, .c2gsLoginAccount 5 "ann" "", .deliver 0, .deliver 0, .c2gsCreateRole 5 "bob" "x" 1] :=
  (role_creation_iff ⟨1001, false⟩ oneAccount oneAccount_limit _).2 (by decide)

/-- The account has one role of three, and the request for a second one raises. -/
theorem role_creation_raises : ¬ Always step (RolesOk oneAccount) (init ⟨1001, false⟩ oneAccount)
    [.opened 1 5 none, .c2gsLoginAccount 5 "ann" "", .deliver 0, .deliver 0, .c2gsCreateRole 5 "ann" "x" 1] := by
  intro h
  have hlast := ((((h.2 _ rfl).2 _ rfl).2 _ rfl).2 _ rfl).2 _ rfl
  have hright := hlast.answers
    ⟨1, "x", 1, .error "attempt to get length of a nil value (field 'm_lRolelist')"⟩ List.mem_cons_self
  cases hright

end RoleSys

end RoundGame.System
