import Mathlib.Data.List.DropRight
import RoundGame.Lib.Fields
import RoundGame.Lib.LuaSpec
import RoundGame.Lib.StepSys
import RoundGame.World.World

/-!
# Refreshing properties at the end of a frame

`SetPlayerPropChange` marks a property of a player in `m_mPlayerPropChange`. At the end of each message `finish_hook`
calls `DoPlayerPropChange`, which puts an empty table in the place of the marks before it goes over them, so that the
calls of `RefreshClientProp` mark into the new one. Each call is protected.

What a call of `RefreshClientProp` does is the parameter `env`: it may mark properties of any player, and raise. The
order in which the table is traversed comes with the event.

The marks that are kept are those since the last flush began (`Pending`), in every run. So a flush refreshes each online
player that has been marked since then once, with the properties marked (`frame_delivers`).
-/

namespace RoundGame.World

open Lua

/-- `mProp`, whose values are all `1`. -/
abbrev PropSet := Fields String Nat

/-- `oPlayer:RefreshClientProp(mProp)` for the player `iPid`. -/
structure RefreshCall where
  iPid : Pid
  oPlayer : ObjId
  mProp : PropSet

inductive PropEvent
  | mark (iPid : Pid) (sProp : String)
  | flush
  | refresh (call : RefreshCall)

/-- The tables of `CWorldMgr` that the flush is about, and what has happened to them so far. -/
structure PropWorld where
  mOnlinePlayers : Pid → Option ObjId
  mPlayerPropChange : Fields Pid PropSet
  log : List PropEvent

/-- What a call of `RefreshClientProp` does. -/
structure RefreshDeed where
  marks : List (Pid × String)
  raises : Bool

namespace PropWorld

def new : PropWorld := ⟨fun _ => none, Fields.empty, []⟩

def setPlayerPropChange (iPid : Pid) (sProp : String) (w : PropWorld) : PropWorld :=
  let mProp :=
    match w.mPlayerPropChange.get iPid with
    | none => Fields.empty
    | some mProp => mProp
  { w with mPlayerPropChange := w.mPlayerPropChange.put iPid (some (mProp.put sProp (some 1))),
           log := w.log ++ [.mark iPid sProp] }

section Code

variable (env : PropWorld → RefreshCall → RefreshDeed)

def refreshClientProp (call : RefreshCall) : LuaM PropWorld PUnit := do
  modify fun w => { w with log := w.log ++ [.refresh call] }
  let w ← get
  (env w call).marks.forM fun m => modify (setPlayerPropChange m.1 m.2)
  if (env w call).raises then throw "RefreshClientProp"

/-- One turn of the loop over the marks. -/
def refreshPlayer (mPlayerProp : Fields Pid PropSet) (w : PropWorld) (iPid : Pid) : PropWorld :=
  match w.mOnlinePlayers iPid, mPlayerProp.get iPid with
  | some oPlayer, some mProp =>
    if mProp.entries = [] then w else safeCall (refreshClientProp env ⟨iPid, oPlayer, mProp⟩) w
  | _, _ => w

/-- `order` is the order in which `pairs` gives the keys. -/
def doPlayerPropChange (order : List Pid) (w : PropWorld) : PropWorld :=
  let mPlayerProp := w.mPlayerPropChange
  order.foldl (refreshPlayer env mPlayerProp) { w with mPlayerPropChange := Fields.empty, log := w.log ++ [.flush] }

/-- `finish_hook` of `hook.lua`, with what `set_logic_func` has set. -/
def finishHook (logic_func : Option (LuaM PropWorld PUnit)) (w : PropWorld) : PropWorld :=
  match logic_func with
  | some f => safeCall f w
  | none => w

/-- What happens to the world: a mark, a player that comes online, the end of a message. -/
inductive Event
  | mark (iPid : Pid) (sProp : String)
  | online (iPid : Pid) (oPlayer : ObjId)
  | frame (order : List Pid)

def step (w : PropWorld) : Event → Option PropWorld
  | .mark iPid sProp => some (w.setPlayerPropChange iPid sProp)
  | .online iPid oPlayer => some { w with mOnlinePlayers := Function.update w.mOnlinePlayers iPid (some oPlayer) }
  | .frame order =>
    if order.Perm w.mPlayerPropChange.keys then some (finishHook (some (modify (doPlayerPropChange env order))) w)
    else none

end Code

/-! ## What has been marked -/

/-- The events since the last flush began. -/
def sinceFlush (log : List PropEvent) : List PropEvent :=
  log.rtakeWhile fun e =>
    match e with
    | .flush => false
    | _ => true

/-- The property has been marked since the last flush began. -/
def Marked (log : List PropEvent) (iPid : Pid) (sProp : String) : Prop := .mark iPid sProp ∈ sinceFlush log

/-- The calls among the events. -/
def calls (log : List PropEvent) : List RefreshCall :=
  log.filterMap fun e =>
    match e with
    | .refresh call => some call
    | _ => none

/-- The table holds the marks since the last flush began. -/
def Pending (w : PropWorld) : Prop :=
  ∀ iPid sProp, Marked w.log iPid sProp ↔ ∃ mProp, w.mPlayerPropChange.get iPid = some mProp ∧ sProp ∈ mProp.keys

theorem not_marked_flush (log : List PropEvent) (iPid : Pid) (sProp : String) :
    ¬ Marked (log ++ [.flush]) iPid sProp := by
  rw [Marked, sinceFlush, List.rtakeWhile_concat_neg _ _ _ (by simp)]
  exact List.not_mem_nil

theorem marked_append {log tr : List PropEvent} (htr : .flush ∉ tr) (iPid : Pid) (sProp : String) :
    Marked (log ++ tr) iPid sProp ↔ Marked log iPid sProp ∨ .mark iPid sProp ∈ tr := by
  induction tr using List.reverseRecOn with
  | nil => simp
  | append_singleton tr e ih =>
    rw [List.mem_append, not_or, List.mem_singleton] at htr
    have he : sinceFlush (log ++ (tr ++ [e])) = sinceFlush (log ++ tr) ++ [e] := by
      rw [sinceFlush, ← List.append_assoc, List.rtakeWhile_concat_pos _ _ _ ?_]
      · rfl
      · cases e with
        | flush => exact absurd rfl htr.2
        | mark iPid sProp => rfl
        | refresh call => rfl
    rw [Marked, he, List.mem_append, List.mem_append, ← or_assoc]
    exact or_congr_left (ih htr.1)

theorem pending_set {w : PropWorld} (h : Pending w) (iPid : Pid) (sProp : String) :
    Pending (w.setPlayerPropChange iPid sProp) := by
  intro iPid' sProp'
  have hlog : (w.setPlayerPropChange iPid sProp).log = w.log ++ [.mark iPid sProp] := rfl
  rw [hlog, marked_append (by simp), h iPid' sProp', List.mem_singleton, PropEvent.mark.injEq]
  simp only [setPlayerPropChange, Fields.get_put]
  by_cases hpid : iPid' = iPid
  · subst hpid
    rw [if_pos rfl]
    cases hget : w.mPlayerPropChange.get iPid' with
    | none => simp [Fields.mem_keys_put]
    | some mProp => simp [Fields.mem_keys_put, or_comm]
  · simp [hpid]

/-! ## The calls of a flush -/

/-- From `w` to `w'` the calls were `cs`, no flush began, and nothing was marked that is not in the table. -/
structure Follows (w : PropWorld) (cs : List RefreshCall) (w' : PropWorld) : Prop where
  online : w'.mOnlinePlayers = w.mOnlinePlayers
  log : ∃ tr, w'.log = w.log ++ tr ∧ .flush ∉ tr ∧ calls tr = cs
  pending : Pending w'

namespace Follows

variable {w w' w'' : PropWorld} {cs cs' : List RefreshCall}

theorem refl (h : Pending w) : Follows w [] w := ⟨rfl, ⟨[], (List.append_nil _).symm, List.not_mem_nil, rfl⟩, h⟩

theorem trans (h : Follows w cs w') (h' : Follows w' cs' w'') : Follows w (cs ++ cs') w'' := by
  obtain ⟨tr, hlog, htr, hcalls⟩ := h.log
  obtain ⟨tr', hlog', htr', hcalls'⟩ := h'.log
  refine ⟨h'.online.trans h.online, ⟨tr ++ tr', ?_, ?_, ?_⟩, h'.pending⟩
  · rw [hlog', hlog, List.append_assoc]
  · rw [List.mem_append, not_or]
    exact ⟨htr, htr'⟩
  · rw [calls, List.filterMap_append, ← calls, ← calls, hcalls, hcalls']

theorem set (h : Pending w) (iPid : Pid) (sProp : String) : Follows w [] (w.setPlayerPropChange iPid sProp) :=
  ⟨rfl, ⟨[.mark iPid sProp], rfl, by simp, rfl⟩, pending_set h iPid sProp⟩

theorem called (h : Pending w) (call : RefreshCall) :
    Follows w [call] { w with log := w.log ++ [.refresh call] } := by
  refine ⟨rfl, ⟨[.refresh call], rfl, by simp, rfl⟩, ?_⟩
  intro iPid sProp
  have htr : PropEvent.flush ∉ [PropEvent.refresh call] := by simp
  have hmarked : Marked (w.log ++ [.refresh call]) iPid sProp ↔ Marked w.log iPid sProp := by
    rw [marked_append htr, List.mem_singleton, or_iff_left nofun]
  exact hmarked.trans (h iPid sProp)

end Follows

/-- What the events `tr` of a flush are to be, between the world `w` at its start and `w'` at its end. -/
structure Delivered (w : PropWorld) (tr : List PropEvent) (w' : PropWorld) : Prop where
  log : w'.log = w.log ++ .flush :: tr
  flush_not_mem : .flush ∉ tr
  nodup : ((calls tr).map RefreshCall.iPid).Nodup
  called : ∀ iPid, iPid ∈ (calls tr).map RefreshCall.iPid ↔
    (w.mOnlinePlayers iPid).isSome ∧ ∃ sProp, Marked w.log iPid sProp
  props : ∀ call ∈ calls tr, w.mOnlinePlayers call.iPid = some call.oPlayer ∧
    ∀ sProp, sProp ∈ call.mProp.keys ↔ Marked w.log call.iPid sProp
  kept : ∀ iPid sProp, Marked w'.log iPid sProp ↔ .mark iPid sProp ∈ tr

section Flush

variable (env : PropWorld → RefreshCall → RefreshDeed) {w : PropWorld}

/-- Whatever a call of `RefreshClientProp` does, it is one call. -/
theorem follows_refresh (h : Pending w) (call : RefreshCall) :
    Follows w [call] (safeCall (refreshClientProp env call) w) := by
  refine Spec.safeCall (P := (· = w)) ?_ rfl
  refine Spec.bind (R := fun _ => Follows w [call]) (Spec.modify fun s hs => hs ▸ Follows.called h call) fun _ => ?_
  refine Spec.get_bind fun w' hw' => ?_
  refine Spec.bind (R := fun _ => Follows w [call]) ?_ fun _ => ?_
  · refine (Spec.forM fun m _ => Spec.modify fun s hs => ?_).conseq (fun s hs => hs ▸ hw') (fun _ _ => id) fun _ => id
    exact hs.trans (Follows.set hs.pending m.1 m.2)
  · split
    · exact Spec.throw fun _ => id
    · exact Spec.pure fun _ => id

/-- The call for a player, when it is online and has been marked. -/
def due (w : PropWorld) (mPlayerProp : Fields Pid PropSet) (iPid : Pid) : Option RefreshCall :=
  match w.mOnlinePlayers iPid, mPlayerProp.get iPid with
  | some oPlayer, some mProp => if mProp.entries = [] then none else some ⟨iPid, oPlayer, mProp⟩
  | _, _ => none

theorem follows_refreshPlayer (h : Pending w) (mPlayerProp : Fields Pid PropSet) (iPid : Pid) :
    Follows w (w.due mPlayerProp iPid).toList (w.refreshPlayer env mPlayerProp iPid) := by
  unfold due refreshPlayer
  cases w.mOnlinePlayers iPid with
  | none => exact Follows.refl h
  | some oPlayer =>
    cases mPlayerProp.get iPid with
    | none => exact Follows.refl h
    | some mProp =>
      by_cases hempty : mProp.entries = []
      · simp only [if_pos hempty]
        exact Follows.refl h
      · simp only [if_neg hempty]
        exact follows_refresh env h _

/-- The loop calls what is due, one player after the other. -/
theorem follows_loop (h : Pending w) (mPlayerProp : Fields Pid PropSet) (order : List Pid) :
    Follows w (order.filterMap (w.due mPlayerProp)) (order.foldl (refreshPlayer env mPlayerProp) w) := by
  induction order generalizing w with
  | nil => exact Follows.refl h
  | cons iPid order ih =>
    have hturn := follows_refreshPlayer env h mPlayerProp iPid
    have hdue : (w.refreshPlayer env mPlayerProp iPid).due mPlayerProp = w.due mPlayerProp := by
      funext iPid'
      unfold due
      rw [hturn.online]
    have hrest := hturn.trans (ih hturn.pending)
    rw [hdue] at hrest
    rw [List.filterMap_cons, List.foldl_cons]
    cases hcall : w.due mPlayerProp iPid with
    | none => rwa [hcall] at hrest
    | some call => rwa [hcall] at hrest

theorem due_eq_some {mPlayerProp : Fields Pid PropSet} {iPid : Pid} {call : RefreshCall} :
    w.due mPlayerProp iPid = some call ↔ call.iPid = iPid ∧ w.mOnlinePlayers iPid = some call.oPlayer ∧
      mPlayerProp.get iPid = some call.mProp ∧ ∃ sProp, sProp ∈ call.mProp.keys := by
  obtain ⟨iPid', oPlayer', mProp'⟩ := call
  unfold due
  cases w.mOnlinePlayers iPid with
  | none => simp
  | some oPlayer =>
    cases mPlayerProp.get iPid with
    | none => simp
    | some mProp =>
      have hkeys : mProp.entries = [] ↔ ¬ ∃ sProp, sProp ∈ mProp.keys := Fields.entries_eq_nil.trans not_exists.symm
      by_cases hmarks : ∃ sProp, sProp ∈ mProp.keys
      · simp only [if_neg fun h => hkeys.1 h hmarks]
        rw [Option.some.injEq, RefreshCall.mk.injEq]
        constructor
        · rintro ⟨rfl, rfl, rfl⟩
          exact ⟨rfl, rfl, rfl, hmarks⟩
        · rintro ⟨rfl, ho, hm, -⟩
          exact ⟨rfl, Option.some.inj ho, Option.some.inj hm⟩
      · simp only [if_pos (hkeys.2 hmarks)]
        refine iff_of_false nofun ?_
        rintro ⟨-, -, hm, hprop⟩
        cases hm
        exact hmarks hprop

theorem map_iPid_due (w : PropWorld) (mPlayerProp : Fields Pid PropSet) (order : List Pid) :
    (order.filterMap (w.due mPlayerProp)).map RefreshCall.iPid =
      order.filter fun iPid => (w.due mPlayerProp iPid).isSome := by
  induction order with
  | nil => rfl
  | cons iPid order ih =>
    rw [List.filterMap_cons, List.filter_cons]
    cases hcall : w.due mPlayerProp iPid with
    | none => exact ih
    | some call =>
      have hpid : call.iPid = iPid := (due_eq_some.1 hcall).1
      simp [ih, hpid]

theorem pending_flush (w : PropWorld) :
    Pending { w with mPlayerPropChange := Fields.empty, log := w.log ++ [.flush] } := by
  refine fun iPid sProp => iff_of_false (not_marked_flush w.log iPid sProp) ?_
  rintro ⟨mProp, hget, -⟩
  cases hget

/-- A flush begins with an empty table and calls what is due for the old one. -/
theorem frame_eq {order : List Pid} {w' : PropWorld} (h : step env w (.frame order) = some w') :
    order.Perm w.mPlayerPropChange.keys ∧
      Follows { w with mPlayerPropChange := Fields.empty, log := w.log ++ [.flush] }
        (order.filterMap (w.due w.mPlayerPropChange)) w' := by
  rw [step] at h
  split at h
  · rename_i hperm
    cases h
    exact ⟨hperm, follows_loop env (pending_flush w) w.mPlayerPropChange order⟩
  · cases h

theorem pending_step {e : Event} {w' : PropWorld} (h : Pending w) (hstep : step env w e = some w') : Pending w' := by
  cases e with
  | mark iPid sProp =>
    cases hstep
    exact pending_set h iPid sProp
  | online iPid oPlayer =>
    cases hstep
    exact h
  | frame order => exact (frame_eq env hstep).2.pending

theorem pending_run {es : List Event} (hrun : StepSys.run (step env) new es = some w) : Pending w := by
  refine StepSys.run_inv (fun h hstep => pending_step env h hstep) (fun iPid sProp => ?_) hrun
  exact iff_of_false List.not_mem_nil fun ⟨_, hget, _⟩ => by cases hget

/-- At the end of a frame each online player marked since the last flush began is refreshed once, with the properties
marked; what is marked meanwhile is kept for the next flush. -/
theorem frame_delivers {es : List Event} {order : List Pid} {w' : PropWorld}
    (hrun : StepSys.run (step env) new es = some w) (hframe : step env w (.frame order) = some w') :
    ∃ tr, Delivered w tr w' := by
  have hpending := pending_run env hrun
  obtain ⟨hperm, hfollows⟩ := frame_eq env hframe
  obtain ⟨tr, hlog, htr, hcalls⟩ := hfollows.log
  have hmark : ∀ {iPid mProp}, w.mPlayerPropChange.get iPid = some mProp →
      ∀ sProp, sProp ∈ mProp.keys ↔ Marked w.log iPid sProp := by
    intro iPid mProp hget sProp
    rw [hpending iPid sProp, hget]
    simp
  refine ⟨tr, by rw [hlog, List.append_assoc]; rfl, htr, ?_, ?_, ?_, ?_⟩
  · rw [hcalls, map_iPid_due]
    exact (hperm.nodup_iff.2 w.mPlayerPropChange.nodup).filter _
  · intro iPid
    rw [hcalls, map_iPid_due, List.mem_filter, hperm.mem_iff, Option.isSome_iff_exists]
    constructor
    · rintro ⟨-, call, hcall⟩
      obtain ⟨-, honline, hget, sProp, hprop⟩ := due_eq_some.1 hcall
      exact ⟨by rw [honline]; rfl, sProp, (hmark hget sProp).1 hprop⟩
    · rintro ⟨honline, sProp, hmarked⟩
      obtain ⟨oPlayer, hplayer⟩ := Option.isSome_iff_exists.1 honline
      obtain ⟨mProp, hget, hprop⟩ := (hpending iPid sProp).1 hmarked
      refine ⟨Fields.mem_keys.2 (by rw [hget]; rfl), ⟨iPid, oPlayer, mProp⟩, ?_⟩
      exact due_eq_some.2 ⟨rfl, hplayer, hget, sProp, hprop⟩
  · intro call hcall
    rw [hcalls, List.mem_filterMap] at hcall
    obtain ⟨iPid, -, hdue⟩ := hcall
    obtain ⟨rfl, honline, hget, -⟩ := due_eq_some.1 hdue
    exact ⟨honline, hmark hget⟩
  · intro iPid sProp
    rw [hlog, marked_append htr, or_iff_right (not_marked_flush w.log iPid sProp)]

/-- Two players are marked, and each refresh marks a property of the first one and raises. -/
theorem frame_delivers_raising : ∃ w w' tr,
    StepSys.run (step fun _ _ => ⟨[(1, "mp")], true⟩) new
      [.online 1 10, .online 2 20, .mark 1 "hp", .mark 2 "hp", .mark 3 "hp"] = some w ∧ Delivered w tr w' := by
  have hrun : (StepSys.run (step fun _ _ => ⟨[(1, "mp")], true⟩) new
      ([.online 1 10, .online 2 20, .mark 1 "hp", .mark 2 "hp", .mark 3 "hp"] ++ [.frame [2, 3, 1]])).isSome := by
    decide
  obtain ⟨w', hw'⟩ := Option.isSome_iff_exists.1 hrun
  obtain ⟨w, hw, hframe⟩ := StepSys.run_concat.1 hw'
  obtain ⟨tr, htr⟩ := frame_delivers _ hw hframe
  exact ⟨w, w', tr, hw, htr⟩

end Flush

end PropWorld

end RoundGame.World
