import RoundGame.Lib.StepSys
import RoundGame.Login.Service
import RoundGame.World.Connection

/-!
# Login and world kick each other's connections

The two services and the two queues of messages between them, each delivered in sending order. Login announces a
closed connection to world; world asks login to close the connection a newer login of the same player replaces.

- `holds f b q`: whether world may know socket `f` once the messages `q` are delivered, when `b` says whether it
  knows `f` now. `LoginPlayer` over `f` sets it, `KickConnection` of `f` clears it.
- `Inv`: a socket that world may know after everything in flight to it is open at login. So a socket world knows
  and login does not has its `KickConnection` still in flight (`no_ghost_connections`).
-/

namespace RoundGame.System

open Function StepSys
open RoundGame.Login (ConnObjs LoginEv Out)
open RoundGame.World (CConnectionMgr ConnOut)

/-- Messages from login to world. -/
inductive WorldMsg
  | loginPlayer (iPid : Pid) (mRole : MRole)
  | kickConnection (iFd : Fd)
  deriving DecidableEq

/-- The part of an output that goes to world. -/
def toWorldMsg : Out → Option WorldMsg
  | .loginPlayer iPid mRole => some (.loginPlayer iPid mRole)
  | .kickConnection iFd => some (.kickConnection iFd)
  | _ => none

/-- The part of an output of world's connection manager that goes to login: the socket of a `KickConnection`. -/
def toLoginMsg : ConnOut → Option Fd
  | .kickConnection _ iFd _ => some iFd
  | .forward _ _ => none

structure LoginWorld where
  gateMgr : ConnObjs
  connMgr : CConnectionMgr
  toWorld : List WorldMsg
  toLogin : List Fd

namespace LoginWorld

def init : LoginWorld := ⟨fun _ => none, CConnectionMgr.new, [], []⟩

/-- World's handlers `LoginPlayer` and `KickConnection`, as far as the connections go. -/
def worldHandle (m : CConnectionMgr) : WorldMsg → CConnectionMgr × List ConnOut
  | .loginPlayer iPid mRole => m.addConnection iPid (World.CConnection.new mRole)
  | .kickConnection iFd => (m.delConnectionByFd iFd, [])

inductive Ev
  | login (e : LoginEv)
  | toWorld
  | toLogin

/-- One event: login handles a client, a socket or a response, or the oldest message of a queue is delivered. -/
def step (s : LoginWorld) : Ev → Option LoginWorld
  | .login e =>
    let r := s.gateMgr.handle e
    some { s with gateMgr := r.1, toWorld := s.toWorld ++ r.2.filterMap toWorldMsg }
  | .toWorld =>
    match s.toWorld with
    | [] => none
    | msg :: q =>
      let r := worldHandle s.connMgr msg
      some { s with connMgr := r.1, toWorld := q, toLogin := s.toLogin ++ r.2.filterMap toLoginMsg }
  | .toLogin =>
    match s.toLogin with
    | [] => none
    | iFd :: q =>
      let r := s.gateMgr.removeConnection iFd
      some { s with gateMgr := r.1, toLogin := q, toWorld := s.toWorld ++ r.2.filterMap toWorldMsg }

/-! ## What world may know -/

/-- Whether world may know socket `f` after a message. -/
def next (f : Fd) (b : Bool) : WorldMsg → Bool
  | .loginPlayer _ mRole => b || mRole.fd = f
  | .kickConnection iFd => b && iFd ≠ f

/-- Whether world may know socket `f` after the messages of a queue. -/
def holds (f : Fd) (b : Bool) (q : List WorldMsg) : Bool := q.foldl (next f) b

theorem holds_append (f : Fd) (b : Bool) (q r : List WorldMsg) : holds f b (q ++ r) = holds f (holds f b q) r :=
  List.foldl_append

theorem next_mono {f : Fd} {msg : WorldMsg} {b c : Bool} (h : b = true → c = true) :
    next f b msg = true → next f c msg = true := by
  cases msg with
  | loginPlayer p r =>
    simp only [next, Bool.or_eq_true]
    exact Or.imp_left h
  | kickConnection g =>
    simp only [next, Bool.and_eq_true]
    exact And.imp_left h

theorem holds_mono {f : Fd} : ∀ {q : List WorldMsg} {b c : Bool}, (b = true → c = true) →
    holds f b q = true → holds f c q = true
  | [], _, _, h => h
  | _ :: q, _, _, h => holds_mono (q := q) (next_mono h)

/-- Only a `KickConnection` of its own makes world forget a socket for sure. -/
theorem holds_of_not_mem {f : Fd} {q : List WorldMsg} (h : .kickConnection f ∉ q) : holds f true q = true := by
  induction q with
  | nil => rfl
  | cons msg q ih =>
    obtain ⟨hm, hq⟩ := List.ne_and_not_mem_of_not_mem_cons h
    have hnext : next f true msg = true := by
      cases msg with
      | loginPlayer p r => rfl
      | kickConnection g =>
        have hg : g ≠ f := fun hgf => hm (by rw [hgf])
        simp [next, hg]
    show holds f (next f true msg) q = true
    rw [hnext]
    exact ih hq

/-- The sockets world knows after `AddConnection`: the new one, and no other new. -/
theorem addConnection_conns {m : CConnectionMgr} {p : Pid} {c : World.CConnection} {f : Fd}
    (h : ((m.addConnection p c).1.mConnections f).isSome) : f = c.iFd ∨ (m.mConnections f).isSome := by
  rcases PMap.isSome_update_some.1 h with hf | hf
  · exact Or.inl hf
  · apply Or.inr
    unfold CConnectionMgr.replaceOldConn at hf
    split at hf
    · rw [CConnectionMgr.delConnectionByFd_conns, PMap.isSome_update_none] at hf
      exact hf.2
    · exact hf

/-- `next` bounds what the handlers of world do. -/
theorem worldHandle_conns (m : CConnectionMgr) (msg : WorldMsg) (f : Fd)
    (h : ((worldHandle m msg).1.mConnections f).isSome) : next f (m.mConnections f).isSome msg = true := by
  cases msg with
  | loginPlayer p r =>
    simp only [next, Bool.or_eq_true, decide_eq_true_eq]
    rcases addConnection_conns h with hf | hf
    · exact Or.inr hf.symm
    · exact Or.inl hf
  | kickConnection g =>
    simp only [worldHandle] at h
    rw [CConnectionMgr.delConnectionByFd_conns, PMap.isSome_update_none] at h
    simp [next, h.2, h.1.symm]

/-! ## The invariant -/

/-- Connections are filed under their own sockets at login, and a socket world may know once the messages to it are
delivered is open at login. -/
structure Inv (s : LoginWorld) : Prop where
  filed : s.gateMgr.Filed
  open_of_holds : ∀ f, holds f (s.connMgr.mConnections f).isSome s.toWorld = true → (s.gateMgr f).isSome

theorem inv_init : Inv init := ⟨fun _ _ h => (by cases h), fun _ h => by cases h⟩

/-- Outputs over open sockets add no socket that is not open. -/
theorem holds_outputs {f : Fd} {b : Bool} {P : Fd → Prop} {out : List Out}
    (hout : ∀ o ∈ out, ∃ g, P g ∧ o.OverFd g) (h : holds f b (out.filterMap toWorldMsg) = true) :
    b = true ∨ P f := by
  induction out generalizing b with
  | nil => exact Or.inl h
  | cons o out ih =>
    have ih' := @ih b fun o' ho' => hout o' (List.mem_cons_of_mem o ho')
    obtain ⟨g, hg, hover⟩ := hout o List.mem_cons_self
    cases o with
    | loginPlayer p r =>
      have htail : next f b (.loginPlayer p r) = true ∨ P f :=
        ih (fun o' ho' => hout o' (List.mem_cons_of_mem _ ho')) h
      rcases htail with hb | hf
      · simp only [next, Bool.or_eq_true, decide_eq_true_eq] at hb
        rcases hb with hb | rfl
        · exact Or.inl hb
        · exact Or.inr (hover ▸ hg)
      · exact Or.inr hf
    | kickConnection g' => exact hover.elim
    | forward _ => exact ih' h
    | start _ => exact ih' h
    | gs2cHello => exact ih' h
    | gs2cLoginError _ => exact ih' h
    | gs2cSelectRole _ => exact ih' h
    | getRoleList _ => exact ih' h
    | genPlayerId _ _ => exact ih' h
    | insertPlayerNameAndPid _ _ _ => exact ih' h
    | saveRoleList _ _ => exact ih' h

namespace Inv

variable {s : LoginWorld}

/-- Login handles an event that closes no socket. -/
theorem opens (h : Inv s) {r : ConnObjs × List Out} (hr : ConnObjs.Opens s.gateMgr r) :
    Inv { s with gateMgr := r.1, toWorld := s.toWorld ++ r.2.filterMap toWorldMsg } := by
  obtain ⟨hfiled, hkeep, hout⟩ := hr
  refine ⟨hfiled, ?_⟩
  intro f hf
  rw [holds_append] at hf
  rcases holds_outputs hout hf with hq | hnew
  · exact hkeep f (h.open_of_holds f hq)
  · exact hnew

/-- Login removes a connection: its `KickConnection` is the last message to world. -/
theorem removeConnection (h : Inv s) (g : Fd) (q : List Fd) :
    Inv { s with gateMgr := (s.gateMgr.removeConnection g).1, toLogin := q,
                 toWorld := s.toWorld ++ (s.gateMgr.removeConnection g).2.filterMap toWorldMsg } := by
  refine ⟨h.filed.removeConnection g, ?_⟩
  intro f hf
  rw [holds_append, ConnObjs.removeConnection_snd h.filed] at hf
  rw [ConnObjs.removeConnection_fst, PMap.isSome_update_none]
  cases hg : s.gateMgr g with
  | none =>
    simp only [hg, Option.isSome_none, Bool.false_eq_true, if_false, List.filterMap_nil] at hf
    have hopen := h.open_of_holds f hf
    refine ⟨?_, hopen⟩
    rintro rfl
    rw [hg] at hopen
    cases hopen
  | some c =>
    have hq : holds f (s.connMgr.mConnections f).isSome s.toWorld = true ∧ g ≠ f := by
      simpa [hg, holds, next, toWorldMsg] using hf
    exact ⟨hq.2.symm, h.open_of_holds f hq.1⟩

/-- World handles a message. -/
theorem worldHandle (h : Inv s) {msg : WorldMsg} {q : List WorldMsg} (hq : s.toWorld = msg :: q) (l : List Fd) :
    Inv { s with connMgr := (LoginWorld.worldHandle s.connMgr msg).1, toWorld := q, toLogin := l } := by
  refine ⟨h.filed, fun f hf => h.open_of_holds f ?_⟩
  rw [hq]
  exact holds_mono (q := q) (worldHandle_conns s.connMgr msg f) hf

end Inv

theorem inv_step {s t : LoginWorld} {e : Ev} (h : Inv s) (hs : step s e = some t) : Inv t := by
  cases e with
  | login e =>
    obtain rfl := Option.some.inj hs
    rcases ConnObjs.handle_opens h.filed e with ⟨f, rfl, hclose⟩ | hopens
    · rw [hclose]
      exact h.removeConnection f s.toLogin
    · exact h.opens hopens
  | toWorld =>
    simp only [step] at hs
    split at hs
    · cases hs
    · next msg q hq =>
      obtain rfl := Option.some.inj hs
      exact h.worldHandle hq _
  | toLogin =>
    simp only [step] at hs
    split at hs
    · cases hs
    · next f q hq =>
      obtain rfl := Option.some.inj hs
      exact h.removeConnection f q

/-- Every socket world knows is open at login or its `KickConnection` is on the way. -/
def NoGhost (s : LoginWorld) : Prop :=
  (∀ f, (s.connMgr.mConnections f).isSome → (s.gateMgr f).isSome ∨ .kickConnection f ∈ s.toWorld) ∧
    (s.toWorld = [] → s.toLogin = [] → ∀ f, (s.connMgr.mConnections f).isSome → (s.gateMgr f).isSome)

theorem Inv.noGhost {s : LoginWorld} (h : Inv s) : NoGhost s := by
  have hghost : ∀ f, (s.connMgr.mConnections f).isSome →
      (s.gateMgr f).isSome ∨ .kickConnection f ∈ s.toWorld := by
    intro f hf
    by_cases hk : .kickConnection f ∈ s.toWorld
    · exact Or.inr hk
    · refine Or.inl (h.open_of_holds f ?_)
      rw [hf]
      exact holds_of_not_mem hk
  refine ⟨hghost, ?_⟩
  intro hq _ f hf
  rcases hghost f hf with hopen | hk
  · exact hopen
  · rw [hq] at hk
    cases hk

/-- **No ghost connections**: in every state of every run, a socket world knows is open at login or its
`KickConnection` is undelivered; with no message in flight it is open. -/
theorem no_ghost_connections (es : List Ev) : Always step NoGhost init es :=
  (always_of_inv inv_step inv_init es).imp fun _ => Inv.noGhost

end LoginWorld

end RoundGame.System
