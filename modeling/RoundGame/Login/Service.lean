import Mathlib.Tactic.SplitIfs
import RoundGame.Login.GateObj

/-!
# The login service

`LoginEv` is what the service handles: the gate opens and closes sockets, clients send their three requests, and the
responses of gamedb and idsupply arrive. A handler finds the connection by its socket and runs one of its methods
under `safe_call` (`ConnObjs.handle`).

A method leaves the socket of its connection alone and sends `LoginPlayer` for that socket only (`Own`),
and only the event that closes a socket removes one (`ConnObjs.handle_opens`).
-/

namespace RoundGame.Login

open Function

/-- The events of the login service, `KickConnection` apart. -/
inductive LoginEv
  | opened (iAddr : Addr) (iFd : Fd) (iPort : Option Int)
  | closed (iFd : Fd)
  | c2gsLoginAccount (iFd : Fd) (sAccount sPwd : String)
  | c2gsCreateRole (iFd : Fd) (sAccount sName : String) (iIcon : Int)
  | c2gsSelectRole (iFd : Fd) (sAccount : String) (iPid : Pid)
  | afterGetRoleList (iFd : Fd) (mData : RoleReply)
  | afterGetPlayerId (iFd : Fd) (sName : String) (iIcon : Int) (iPid : Pid)
  | afterInsertNameAndPid (iFd : Fd) (sName : String) (iIcon : Int) (iPid : Pid) (success : Bool)
  | login (iFd : Fd) (iPid : Pid)

/-- A method that raises leaves its connection as it was. -/
def CConnection.safeCall (c : CConnection) : Except String (CConnection × List Out) → CConnection × List Out
  | .ok r => r
  | .error _ => (c, [])

namespace ConnObjs

variable (m : ConnObjs)

/-- A method of the connection of a socket, when there is one. -/
def onConn (iFd : Fd) (f : CConnection → CConnection × List Out) : ConnObjs × List Out :=
  match m.getConnection iFd with
  | none => (m, [])
  | some oConn => (update m iFd (some (f oConn).1), (f oConn).2)

def handle : LoginEv → ConnObjs × List Out
  | .opened iAddr iFd iPort => m.addConnection (CConnection.new iAddr iFd iPort)
  | .closed iFd => m.removeConnection iFd
  | .c2gsLoginAccount iFd sAccount sPwd => m.onConn iFd fun c => c.loginAccount sAccount sPwd
  | .c2gsCreateRole iFd sAccount sName iIcon =>
    m.onConn iFd fun c => c.safeCall ((c.createRole sAccount sName iIcon).map fun out => (c, out))
  | .c2gsSelectRole iFd sAccount iPid => m.onConn iFd fun c => (c, c.selectRole sAccount iPid)
  | .afterGetRoleList iFd mData => m.onConn iFd fun c => c.safeCall (c.afterGetRoleList mData)
  | .afterGetPlayerId iFd sName iIcon iPid => m.onConn iFd fun c => (c, c.afterGetPlayerId sName iIcon iPid)
  | .afterInsertNameAndPid iFd sName iIcon iPid success =>
    m.onConn iFd fun c => c.afterInsertNameAndPid sName iIcon iPid success
  | .login iFd iPid => m.onConn iFd fun c => (c, c.login iPid)

end ConnObjs

/-! ## Methods keep to their own socket -/

/-- A message of a method run on socket `f`: nothing is kicked, and a player logs in over `f`. -/
def Out.OverFd (f : Fd) : Out → Prop
  | .loginPlayer _ role => role.fd = f
  | .kickConnection _ => False
  | _ => True

/-- A method result that keeps to the socket of its connection. -/
def Own (c : CConnection) (r : CConnection × List Out) : Prop :=
  r.1.iFd = c.iFd ∧ ∀ o ∈ r.2, o.OverFd c.iFd

namespace CConnection

variable (c : CConnection)

theorem login_overFd (iPid : Pid) : ∀ o ∈ c.login iPid, o.OverFd c.iFd := by
  intro o ho
  unfold login at ho
  cases hacc : c.sAccount with
  | none => simp [hacc] at ho
  | some a =>
    simp only [hacc, List.mem_singleton] at ho
    subst ho
    exact rfl

theorem login_own (iPid : Pid) : Own c (c, c.login iPid) := ⟨rfl, c.login_overFd iPid⟩

theorem loginAccount_own (sAccount sPwd : String) : Own c (c.loginAccount sAccount sPwd) := by
  rw [loginAccount_eq]
  split <;> simp [Own, Out.OverFd]

theorem selectRole_own (sAccount : String) (iPid : Pid) : Own c (c, c.selectRole sAccount iPid) := by
  rw [selectRole_eq]
  refine ⟨rfl, ?_⟩
  split_ifs <;> simp [Out.OverFd]

theorem createRole_own (sAccount sName : String) (iIcon : Int) :
    Own c (c.safeCall ((c.createRole sAccount sName iIcon).map fun out => (c, out))) := by
  rw [createRole_eq]
  split_ifs <;> simp [Except.map, safeCall, Own, Out.OverFd]

theorem afterGetRoleList_own (mData : RoleReply) : Own c (c.safeCall (c.afterGetRoleList mData)) := by
  cases mData <;> simp [afterGetRoleList, safeCall, Own, Out.OverFd]

theorem afterInsertNameAndPid_own (sName : String) (iIcon : Int) (iPid : Pid) (success : Bool) :
    Own c (c.afterInsertNameAndPid sName iIcon iPid success) := by
  cases success with
  | false => simp [afterInsertNameAndPid, Own, Out.OverFd]
  | true =>
    refine ⟨rfl, ?_⟩
    intro o ho
    rcases List.mem_cons.1 ho with rfl | ho
    · exact trivial
    · exact login_overFd _ iPid o ho

end CConnection

namespace ConnObjs

/-- The connections of a gate, each filed under its own socket. -/
def Filed (m : ConnObjs) : Prop := ∀ f c, m f = some c → c.iFd = f

/-- What handling an event other than `close` does to the sockets: none is closed, and players log in over open
sockets only. -/
def Opens (m : ConnObjs) (r : ConnObjs × List Out) : Prop :=
  Filed r.1 ∧ (∀ f, (m f).isSome → (r.1 f).isSome) ∧
    ∀ o ∈ r.2, ∃ f, (r.1 f).isSome ∧ o.OverFd f

variable {m : ConnObjs}

theorem addConnection_opens (h : m.Filed) (c : CConnection) : Opens m (m.addConnection c) := by
  refine ⟨?_, fun f hf => PMap.isSome_update_some.2 (Or.inr hf), fun o ho => ⟨c.iFd, ?_, ?_⟩⟩
  · intro f d hd
    rcases PMap.update_some_eq_some.1 hd with ⟨rfl, rfl⟩ | ⟨-, hd⟩
    · rfl
    · exact h f d hd
  · exact PMap.isSome_update_some.2 (Or.inl rfl)
  · simp only [addConnection, CConnection.forward, List.mem_cons, List.not_mem_nil, or_false] at ho
    rcases ho with rfl | rfl | rfl <;> exact trivial

theorem onConn_opens (h : m.Filed) (iFd : Fd) {f : CConnection → CConnection × List Out}
    (hf : ∀ c, Own c (f c)) : Opens m (m.onConn iFd f) := by
  unfold onConn getConnection
  cases hc : m iFd with
  | none => exact ⟨h, fun _ hx => hx, fun o ho => by cases ho⟩
  | some c =>
    obtain ⟨hfd, hout⟩ := hf c
    have hown := h iFd c hc
    refine ⟨?_, fun g hg => PMap.isSome_update_some.2 (Or.inr hg), fun o ho => ⟨iFd, ?_, ?_⟩⟩
    · intro g d hd
      rcases PMap.update_some_eq_some.1 hd with ⟨rfl, rfl⟩ | ⟨-, hd⟩
      · exact hfd.trans hown
      · exact h g d hd
    · exact PMap.isSome_update_some.2 (Or.inl rfl)
    · rw [← hown]
      exact hout o ho

/-- **What a handler does to the sockets**: `close` removes its own, with a kick, and nothing else removes one. -/
theorem handle_opens (h : m.Filed) (e : LoginEv) :
    (∃ f, e = .closed f ∧ m.handle e = m.removeConnection f) ∨ Opens m (m.handle e) := by
  cases e with
  | closed f => exact Or.inl ⟨f, rfl, rfl⟩
  | opened a f p => exact Or.inr (addConnection_opens h _)
  | c2gsLoginAccount f a p => exact Or.inr (onConn_opens h f fun c => c.loginAccount_own a p)
  | c2gsCreateRole f a n i => exact Or.inr (onConn_opens h f fun c => c.createRole_own a n i)
  | c2gsSelectRole f a p => exact Or.inr (onConn_opens h f fun c => c.selectRole_own a p)
  | afterGetRoleList f r => exact Or.inr (onConn_opens h f fun c => c.afterGetRoleList_own r)
  | afterGetPlayerId f n i p =>
    refine Or.inr (onConn_opens h f fun c => ⟨rfl, ?_⟩)
    simp [CConnection.afterGetPlayerId, Out.OverFd]
  | afterInsertNameAndPid f n i p s => exact Or.inr (onConn_opens h f fun c => c.afterInsertNameAndPid_own n i p s)
  | login f p => exact Or.inr (onConn_opens h f fun c => c.login_own p)

theorem removeConnection_fst (m : ConnObjs) (f : Fd) : (m.removeConnection f).1 = update m f none := by
  unfold removeConnection
  split
  · next h => exact (update_eq_self_iff.2 h.symm).symm
  · rfl

/-- A removed connection is announced to the world service. -/
theorem removeConnection_snd (h : m.Filed) (f : Fd) :
    (m.removeConnection f).2 = if (m f).isSome then [.kickConnection f] else [] := by
  unfold removeConnection
  split
  · next hn => simp [hn]
  · next c hc => simp [hc, CConnection.onRemove, h f c hc]

theorem Filed.removeConnection (h : m.Filed) (f : Fd) : (m.removeConnection f).1.Filed := by
  intro g c hc
  rw [removeConnection_fst] at hc
  exact h g c (PMap.update_none_eq_some.1 hc).2

end ConnObjs

end RoundGame.Login
