import RoundGame.Lib.PMap
import RoundGame.Lib.StepSys
import RoundGame.Base.Defs

/-!
# The connection tables of the world service

`CConnectionMgr` keeps three tables: player to socket, socket to player, socket to connection. `AddConnection`
replaces the connection the player has, and `DelConnectionByFd` deletes by socket.

- `TablesOk`: the first two are inverse to each other and the third has the keys of the second, each connection
  filed under its own socket. `DelConnectionByFd` keeps it (`TablesOk.delConnectionByFd`).
- `AddConnection` keeps it exactly when the socket is not bound to another player (`addConnection_ok_iff`): that
  player's entry stays behind. So the tables of a run are in order throughout iff no connection is added over the
  socket of another player (`tables_bijective_iff`).
-/

namespace RoundGame.World

open Function StepSys

structure CConnection where
  iGateAddr : Addr
  iFd : Fd
  iPort : Option Int
  deriving DecidableEq

def CConnection.new (mRole : MRole) : CConnection := ⟨mRole.addr, mRole.fd, mRole.port⟩

/-- What the connection manager sends: `forward` to the gate, `KickConnection` to login. -/
inductive ConnOut
  | forward (addr : Addr) (fd : Fd)
  | kickConnection (addr : Addr) (fd : Fd) (port : Option Int)
  deriving DecidableEq

def CConnection.forward (o : CConnection) : ConnOut := .forward o.iGateAddr o.iFd

def CConnection.replaceByNewConn (o : CConnection) : ConnOut := .kickConnection o.iGateAddr o.iFd o.iPort

structure CConnectionMgr where
  mConnections : Fd → Option CConnection
  mPid2Fd : Pid → Option Fd
  mFd2Pid : Fd → Option Pid

namespace CConnectionMgr

def new : CConnectionMgr := ⟨fun _ => none, fun _ => none, fun _ => none⟩

variable (m : CConnectionMgr)

def getConnectionByFd (iFd : Fd) : Option CConnection := m.mConnections iFd

def getPidByFd (iFd : Fd) : Option Pid := m.mFd2Pid iFd

def getConnectionByPid (iPid : Pid) : Option CConnection :=
  match m.mPid2Fd iPid with
  | some iFd => m.mConnections iFd
  | none => none

def delConnectionByFd (iFd : Fd) : CConnectionMgr :=
  match m.getConnectionByFd iFd with
  | none => m
  | some _ =>
    { mFd2Pid := update m.mFd2Pid iFd none
      mPid2Fd := match m.mFd2Pid iFd with
        | some iPid => update m.mPid2Fd iPid none
        | none => m.mPid2Fd
      mConnections := update m.mConnections iFd none }

/-- The replace path of `AddConnection`: the player's old connection is kicked and deleted. -/
def replaceOldConn (iPid : Pid) : CConnectionMgr × List ConnOut :=
  match m.getConnectionByPid iPid with
  | some oOldConn => (m.delConnectionByFd oOldConn.iFd, [oOldConn.replaceByNewConn])
  | none => (m, [])

def addConnection (iPid : Pid) (oConn : CConnection) : CConnectionMgr × List ConnOut :=
  let r := m.replaceOldConn iPid
  ({ mPid2Fd := update r.1.mPid2Fd iPid (some oConn.iFd)
     mFd2Pid := update r.1.mFd2Pid oConn.iFd (some iPid)
     mConnections := update r.1.mConnections oConn.iFd (some oConn) }, r.2 ++ [oConn.forward])

end CConnectionMgr

inductive ConnEv
  | addConnection (iPid : Pid) (oConn : CConnection)
  | delConnectionByFd (iFd : Fd)

def CConnectionMgr.step (m : CConnectionMgr) : ConnEv → Option CConnectionMgr
  | .addConnection iPid oConn => some (m.addConnection iPid oConn).1
  | .delConnectionByFd iFd => some (m.delConnectionByFd iFd)

/-! ## Deleting -/

namespace CConnectionMgr

theorem delConnectionByFd_none {m : CConnectionMgr} {f : Fd} (h : m.mConnections f = none) :
    m.delConnectionByFd f = m := by
  simp [delConnectionByFd, getConnectionByFd, h]

/-- `DelConnectionByFd` deletes the entry of its socket from the table of connections, and no other. -/
theorem delConnectionByFd_conns (m : CConnectionMgr) (f : Fd) :
    (m.delConnectionByFd f).mConnections = update m.mConnections f none := by
  unfold delConnectionByFd getConnectionByFd
  split
  · next h => exact (update_eq_self_iff.2 h.symm).symm
  · rfl

theorem getConnectionByPid_eq_some {m : CConnectionMgr} {p : Pid} {c : CConnection} :
    m.getConnectionByPid p = some c ↔ ∃ f, m.mPid2Fd p = some f ∧ m.mConnections f = some c := by
  unfold getConnectionByPid
  cases m.mPid2Fd p <;> simp

end CConnectionMgr

/-! ## The tables in order -/

/-- The tables of a connection manager are in order. -/
structure TablesOk (m : CConnectionMgr) : Prop where
  inverse : PMap.Inverse m.mPid2Fd m.mFd2Pid
  keys : ∀ f, (m.mConnections f).isSome ↔ (m.mFd2Pid f).isSome
  filed : ∀ f c, m.mConnections f = some c → c.iFd = f

namespace TablesOk

variable {m : CConnectionMgr}

theorem new : TablesOk CConnectionMgr.new :=
  ⟨PMap.Inverse.empty, fun _ => Iff.rfl, fun _ _ h => by cases h⟩

/-- A player's connection is bound to that player. -/
theorem own (h : TablesOk m) {p : Pid} {c : CConnection} (hc : m.getConnectionByPid p = some c) :
    m.mFd2Pid c.iFd = some p := by
  obtain ⟨f, hp, hf⟩ := CConnectionMgr.getConnectionByPid_eq_some.1 hc
  rw [h.filed f c hf]
  exact (h.inverse p f).1 hp

/-- A player without a connection has no socket. -/
theorem unbound (h : TablesOk m) {p : Pid} (hc : m.getConnectionByPid p = none) : m.mPid2Fd p = none := by
  cases hp : m.mPid2Fd p with
  | none => rfl
  | some f =>
    have hsome : (m.mConnections f).isSome := (h.keys f).2 (by rw [(h.inverse p f).1 hp]; rfl)
    obtain ⟨c, hf⟩ := Option.isSome_iff_exists.1 hsome
    rw [CConnectionMgr.getConnectionByPid_eq_some.2 ⟨f, hp, hf⟩] at hc
    cases hc

/-- Deleting a bound socket deletes its pair from both tables. -/
theorem delConnectionByFd_eq (h : TablesOk m) {p : Pid} {f : Fd} (hf : m.mFd2Pid f = some p) :
    m.delConnectionByFd f = ⟨update m.mConnections f none, update m.mPid2Fd p none, update m.mFd2Pid f none⟩ := by
  obtain ⟨c, hc⟩ := Option.isSome_iff_exists.1 ((h.keys f).2 (by rw [hf]; rfl))
  simp [CConnectionMgr.delConnectionByFd, CConnectionMgr.getConnectionByFd, hc, hf]

theorem delConnectionByFd (h : TablesOk m) (f : Fd) : TablesOk (m.delConnectionByFd f) := by
  cases hf : m.mFd2Pid f with
  | none =>
    have hn : m.mConnections f = none := by
      rw [← Option.not_isSome_iff_eq_none, h.keys f, hf]; simp
    rw [CConnectionMgr.delConnectionByFd_none hn]
    exact h
  | some p =>
    rw [h.delConnectionByFd_eq hf]
    refine ⟨h.inverse.erase ((h.inverse p f).2 hf), ?_, ?_⟩
    · intro g
      rw [PMap.isSome_update_none, PMap.isSome_update_none, h.keys g]
    · intro g c hg
      exact h.filed g c (PMap.update_none_eq_some.1 hg).2

/-- What the replace path leaves: tables in order, the player unbound, everybody else as before. -/
theorem replaceOldConn (h : TablesOk m) (p : Pid) : TablesOk (m.replaceOldConn p).1 ∧
    (m.replaceOldConn p).1.mPid2Fd p = none ∧
    ∀ g q, (m.replaceOldConn p).1.mFd2Pid g = some q ↔ m.mFd2Pid g = some q ∧ q ≠ p := by
  unfold CConnectionMgr.replaceOldConn
  cases hc : m.getConnectionByPid p with
  | none =>
    have hp := h.unbound hc
    refine ⟨h, hp, fun g q => ⟨fun hg => ⟨hg, ?_⟩, fun hg => hg.1⟩⟩
    rintro rfl
    rw [(h.inverse q g).2 hg] at hp
    cases hp
  | some c =>
    have hf := h.own hc
    have heq := h.delConnectionByFd_eq hf
    refine ⟨h.delConnectionByFd c.iFd, by simp [heq], ?_⟩
    intro g q
    simp only [heq]
    rw [PMap.update_none_eq_some]
    constructor
    · rintro ⟨hne, hg⟩
      refine ⟨hg, ?_⟩
      rintro rfl
      have h1 := (h.inverse q g).2 hg
      rw [(h.inverse q c.iFd).2 hf] at h1
      exact hne (Option.some.inj h1).symm
    · rintro ⟨hg, hne⟩
      refine ⟨?_, hg⟩
      rintro rfl
      rw [hf] at hg
      exact hne (Option.some.inj hg).symm

/-- **`AddConnection` keeps the tables in order iff the socket is not bound to another player.** -/
theorem addConnection_ok_iff (h : TablesOk m) (p : Pid) (c : CConnection) :
    TablesOk (m.addConnection p c).1 ↔ ∀ q ∈ m.mFd2Pid c.iFd, q = p := by
  obtain ⟨hok, hp, hg⟩ := h.replaceOldConn p
  constructor
  · intro ht q hq
    by_contra hne
    have hqf := (hok.inverse q c.iFd).2 ((hg c.iFd q).2 ⟨hq, hne⟩)
    exact PMap.not_inverse_insert hne hqf ht.inverse
  · intro hfree
    have hf : (m.replaceOldConn p).1.mFd2Pid c.iFd = none := by
      cases hr : (m.replaceOldConn p).1.mFd2Pid c.iFd with
      | none => rfl
      | some q =>
        obtain ⟨hq, hne⟩ := (hg c.iFd q).1 hr
        exact absurd (hfree q hq) hne
    refine ⟨hok.inverse.insert hp hf, ?_, ?_⟩
    · intro g
      simp only [CConnectionMgr.addConnection]
      rw [PMap.isSome_update_some, PMap.isSome_update_some, hok.keys g]
    · intro g d hd
      simp only [CConnectionMgr.addConnection] at hd
      rcases PMap.update_some_eq_some.1 hd with ⟨rfl, rfl⟩ | ⟨-, hd⟩
      · rfl
      · exact hok.filed g d hd

end TablesOk

/-! ## Runs -/

/-- The connection being added comes over a socket that no other player is bound to. -/
def SocketFree (m : CConnectionMgr) : ConnEv → Prop
  | .addConnection iPid oConn => ∀ q ∈ m.mFd2Pid oConn.iFd, q = iPid
  | .delConnectionByFd _ => True

theorem tablesOk_step {m m' : CConnectionMgr} {e : ConnEv} (h : TablesOk m) (hs : m.step e = some m') :
    TablesOk m' ↔ SocketFree m e := by
  cases e with
  | addConnection p c =>
    obtain rfl : (m.addConnection p c).1 = m' := Option.some.inj hs
    exact h.addConnection_ok_iff p c
  | delConnectionByFd f =>
    obtain rfl : m.delConnectionByFd f = m' := Option.some.inj hs
    exact iff_of_true (h.delConnectionByFd f) trivial

/-- The tables are in order, and no player's connection is bound to another player. -/
def Bijective (m : CConnectionMgr) : Prop :=
  TablesOk m ∧ ∀ p c q, m.getConnectionByPid p = some c → m.mFd2Pid c.iFd = some q → q = p

theorem bijective_iff {m : CConnectionMgr} : Bijective m ↔ TablesOk m :=
  ⟨And.left, fun h => ⟨h, fun _ _ _ hc hq => Option.some.inj (hq.symm.trans (h.own hc))⟩⟩

/-- **The tables stay a bijection** throughout a run iff no connection is added over a socket that is bound to
another player at that moment. -/
theorem tables_bijective_iff (es : List ConnEv) :
    Always CConnectionMgr.step Bijective CConnectionMgr.new es ↔
      Along CConnectionMgr.step SocketFree CConnectionMgr.new es := by
  have hfun : Bijective = TablesOk := funext fun m => propext bijective_iff
  rw [hfun]
  exact always_iff_along tablesOk_step TablesOk.new es

/-- Players 1001 and 1002 log in over socket 5: player 1001's entry still names it. -/
theorem tables_not_bijective : ¬ Always CConnectionMgr.step Bijective CConnectionMgr.new
    [.addConnection 1001 ⟨1, 5, none⟩, .addConnection 1002 ⟨1, 5, none⟩] := by
  intro h
  have hlast := ((h.2 _ rfl).2 _ rfl).start.1
  have hpid := (hlast.inverse 1001 5).1 (by decide)
  revert hpid
  decide

end RoundGame.World
