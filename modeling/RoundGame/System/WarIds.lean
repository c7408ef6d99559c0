import Mathlib.Data.List.Induction
import RoundGame.Lib.RoundRobin
import RoundGame.System.WarTeardown

/-!
# The ids of the wars

`CWarMgr` of the world numbers its wars and hands them to the remotes in turn. The number starts over after
`0x7fffffff`, and nobody looks whether a war with it is still there.

- Without any condition, the ids are in their range and each remote has its share of the wars (`created_createWar`,
  `received_bounds`).
- A war is there iff it has not been removed since the last creation under its id (`there_iff`). So no creation replaces
  a war iff each war is removed before as many creations as there are ids have followed its own (`war_ids`).
-/

namespace RoundGame.World

open Function Lua

namespace WarWorld

/-- `CWarMgr:InitRemote`. -/
def initRemote (lRemote : List Remote) (g : WarWorld) : WarWorld := { g with lRemote := lRemote, iRemoteHash := 0 }

/-- A new `CWarMgr` after `InitRemote`. -/
def init (lRemote : List Remote) (mOnlinePlayers : Pid → Bool) : WarWorld :=
  initRemote lRemote ⟨fun _ => none, 0, [], 0, mOnlinePlayers, [], [], []⟩

inductive MgrEv
  | createWar
  | removeWar (iWar : WarId)
  deriving DecidableEq

def mgrStep (g : WarWorld) : MgrEv → WarWorld
  | .createWar => safeCall createWar g
  | .removeWar iWar => safeCall (removeWar (some iWar)) g

/-- The number of ids. -/
def idCount : Nat := 0x7fffffff

/-- The id of the war created after `n` others. -/
def warIdOf (n : Nat) : WarId := (n % idCount + 1 : Nat)

/-- The creations among the events. -/
def creations (es : List MgrEv) : Nat := es.count .createWar

/-- The wars that a remote has been told of. -/
def received (g : WarWorld) (r : Remote) : Nat := (g.sent.map Prod.fst).count r

/-- The creation from `g` to `g'` takes an id of the range and an entry of the list of remotes. -/
structure Created (lRemote : List Remote) (g g' : WarWorld) : Prop where
  range : 1 ≤ g'.iDispatchId ∧ g'.iDispatchId ≤ 0x7fffffff
  remote : ∃ r ∈ lRemote, g'.mWars g'.iDispatchId = some (WarObj.new g'.iDispatchId r) ∧
    g'.sent = g.sent ++ [(r, .confirmRemote g'.iDispatchId)]

/-- The creation from `g` to `g'` takes the id of no war of `g`, and leaves these as they are. -/
structure Fresh (g g' : WarWorld) : Prop where
  free : g.mWars g'.iDispatchId = none
  kept : ∀ i oWar, g.mWars i = some oWar → g'.mWars i = some oWar

/-- The run after `InitRemote`. -/
def exec (lRemote : List Remote) (mOnlinePlayers : Pid → Bool) (es : List MgrEv) : WarWorld :=
  es.foldl mgrStep (init lRemote mOnlinePlayers)

/-- The war with this id has been created, and it has not been removed since. -/
def Alive (es : List MgrEv) (i : WarId) : Prop :=
  ∃ es₁ es₂, es = es₁ ++ .createWar :: es₂ ∧ warIdOf (creations es₁) = i ∧ .removeWar i ∉ es₂

/-- Each war is removed before as many creations as there are ids have followed its own. -/
def RemovedInTime (es : List MgrEv) : Prop :=
  ∀ es₁ es₂ es₃, es = es₁ ++ .createWar :: (es₂ ++ .createWar :: es₃) → creations es₂ + 1 = idCount →
    .removeWar (warIdOf (creations es₁)) ∈ es₂

section Run

variable {lRemote : List Remote} {mOnlinePlayers : Pid → Bool} {es : List MgrEv} {g : WarWorld}

/-! ## One event -/

/-- The manager after `n` creations. -/
structure Counted (lRemote : List Remote) (n : Nat) (g : WarWorld) : Prop where
  list : g.lRemote = lRemote
  dispatch : g.iDispatchId = if n = 0 then 0 else warIdOf (n - 1)
  hash : g.iRemoteHash = if n = 0 then 0 else (n - 1) % lRemote.length + 1
  sent : g.sent.map Prod.fst = RoundRobin.turns lRemote n
  filed : ∀ i oWar, g.mWars i = some oWar → oWar.iWarId = i

theorem counted_init (lRemote : List Remote) (mOnlinePlayers : Pid → Bool) :
    Counted lRemote 0 (init lRemote mOnlinePlayers) :=
  ⟨rfl, rfl, rfl, rfl, fun _ _ h => by cases h⟩

theorem next_id {n : Nat} {i : Int} (h : i = if n = 0 then 0 else (((n - 1) % 0x7fffffff + 1 : Nat) : Int)) :
    (if 0x7fffffff < i + 1 then 1 else i + 1) = ((n % 0x7fffffff + 1 : Nat) : Int) := by
  subst h
  split_ifs <;> omega

theorem next_hash {n size : Nat} (hpos : 0 < size) {i : Nat} (h : i = if n = 0 then 0 else (n - 1) % size + 1) :
    (if size < i + 1 then 1 else i + 1) = n % size + 1 := by
  subst h
  cases n with
  | zero =>
    rw [if_pos rfl, if_neg (by omega), Nat.zero_mod]
  | succ n =>
    rw [if_neg n.succ_ne_zero, Nat.add_sub_cancel]
    rcases RoundRobin.div_mod_succ hpos n with ⟨hlast, -, hmod⟩ | ⟨hlt, -, hmod⟩
    · rw [hlast, if_pos (Nat.lt_succ_self size), hmod]
    · rw [if_neg (by omega), hmod]

theorem exec_dispatchId {n : Nat} (h : Counted lRemote n g) :
    dispatchId.exec g = (.ok (warIdOf n), { g with iDispatchId := warIdOf n }) := by
  have hid : (if 0x7fffffff < g.iDispatchId + 1 then 1 else g.iDispatchId + 1) = warIdOf n := next_id h.dispatch
  rw [← hid]
  rfl

theorem exec_randomRemote {n : Nat} (hne : lRemote ≠ []) (h : Counted lRemote n g) (i : WarId) :
    randomRemote.exec { g with iDispatchId := i } = (.ok lRemote[n % lRemote.length]?,
      { g with iDispatchId := i, iRemoteHash := n % lRemote.length + 1 }) := by
  have hhash : (if g.lRemote.length < g.iRemoteHash + 1 then 1 else g.iRemoteHash + 1) = n % lRemote.length + 1 := by
    rw [h.list]
    exact next_hash (List.length_pos_iff.2 hne) h.hash
  have hexec : randomRemote.exec { g with iDispatchId := i } =
      (.ok g.lRemote[(if g.lRemote.length < g.iRemoteHash + 1 then 1 else g.iRemoteHash + 1) - 1]?,
        { g with iDispatchId := i,
                 iRemoteHash := if g.lRemote.length < g.iRemoteHash + 1 then 1 else g.iRemoteHash + 1 }) := rfl
  rw [hexec, hhash, Nat.add_sub_cancel, h.list]

/-- What `CreateWar` does, with the next id and the remote whose turn it is. -/
theorem createWar_eq {n : Nat} (hne : lRemote ≠ []) (h : Counted lRemote n g) : ∃ r ∈ lRemote,
    lRemote[n % lRemote.length]? = some r ∧ mgrStep g .createWar =
      { g with
        iDispatchId := warIdOf n
        iRemoteHash := n % lRemote.length + 1
        mWars := update g.mWars (warIdOf n) (some (WarObj.new (warIdOf n) r))
        sent := g.sent ++ [(r, .confirmRemote (warIdOf n))] } := by
  obtain ⟨r, hr, hturn⟩ := RoundRobin.getElem?_turn hne n
  refine ⟨r, hr, hturn, ?_⟩
  unfold mgrStep safeCall createWar
  rw [LuaM.exec_bind, exec_dispatchId h]
  simp only
  rw [LuaM.exec_bind, exec_randomRemote hne h, hturn]
  rfl

/-- What `RemoveWar` does. -/
theorem removeWar_eq {n : Nat} (h : Counted lRemote n g) (i : WarId) :
    mgrStep g (.removeWar i) = { g with mWars := update g.mWars i none } := by
  show ((removeWar (some i)).exec g).2 = _
  unfold removeWar
  rw [LuaM.exec_bind, LuaM.exec_get]
  cases hwar : g.mWars i with
  | none =>
    have hget : g.getWar (some i) = none := hwar
    have hupdate : update g.mWars i none = g.mWars := by rw [← hwar, update_eq_self]
    rw [hupdate]
    simp only [hget]
    rfl
  | some oWar =>
    have hget : g.getWar (some i) = some oWar := hwar
    simp only [hget, h.filed i oWar hwar]
    rfl

theorem counted_step {n : Nat} (hne : lRemote ≠ []) (h : Counted lRemote n g) (e : MgrEv) :
    Counted lRemote (n + creations [e]) (mgrStep g e) := by
  cases e with
  | createWar =>
    obtain ⟨r, -, hturn, heq⟩ := createWar_eq hne h
    rw [heq]
    refine ⟨h.list, rfl, rfl, ?_, fun i oWar hwar => ?_⟩
    · show (g.sent ++ [_]).map Prod.fst = RoundRobin.turns lRemote (n + 1)
      rw [List.map_append, h.sent, RoundRobin.turns_succ, hturn]
      rfl
    · rcases PMap.update_some_eq_some.1 hwar with ⟨rfl, rfl⟩ | ⟨-, hold⟩
      · rfl
      · exact h.filed i oWar hold
  | removeWar i =>
    rw [removeWar_eq h i]
    exact ⟨h.list, h.dispatch, h.hash, h.sent, fun j oWar hwar => h.filed j oWar (PMap.update_none_eq_some.1 hwar).2⟩

theorem counted_exec (hne : lRemote ≠ []) (mOnlinePlayers : Pid → Bool) (es : List MgrEv) :
    Counted lRemote (creations es) (exec lRemote mOnlinePlayers es) := by
  induction es using List.reverseRecOn with
  | nil => exact counted_init lRemote mOnlinePlayers
  | append_singleton es e ih =>
    rw [exec, List.foldl_concat, creations, List.count_append]
    exact counted_step hne ih e

/-! ## The wars that are there -/

theorem alive_concat {e : MgrEv} {i : WarId} : Alive (es ++ [e]) i ↔
    (e = .createWar ∧ warIdOf (creations es) = i) ∨ (Alive es i ∧ e ≠ .removeWar i) := by
  constructor
  · rintro ⟨es₁, es₂, hes, hi, hnot⟩
    rcases List.eq_nil_or_concat es₂ with rfl | ⟨es₂, e', rfl⟩
    · obtain ⟨rfl, he⟩ := List.append_inj' hes rfl
      exact Or.inl ⟨List.singleton_inj.1 he, hi⟩
    · rw [List.concat_eq_append] at hes hnot
      rw [← List.cons_append, ← List.append_assoc] at hes
      obtain ⟨rfl, he⟩ := List.append_inj' hes rfl
      obtain rfl := List.singleton_inj.1 he
      rw [List.mem_append, not_or, List.mem_singleton] at hnot
      exact Or.inr ⟨⟨es₁, es₂, rfl, hi, hnot.1⟩, Ne.symm hnot.2⟩
  · rintro (⟨rfl, hi⟩ | ⟨⟨es₁, es₂, rfl, hi, hnot⟩, he⟩)
    · exact ⟨es, [], rfl, hi, List.not_mem_nil⟩
    · refine ⟨es₁, es₂ ++ [e], by simp, hi, ?_⟩
      rw [List.mem_append, not_or, List.mem_singleton]
      exact ⟨hnot, fun h => he h.symm⟩

/-- A war is there iff it has not been removed since the last creation under its id. -/
theorem there_iff (hne : lRemote ≠ []) (mOnlinePlayers : Pid → Bool) (es : List MgrEv) (i : WarId) :
    (exec lRemote mOnlinePlayers es).mWars i ≠ none ↔ Alive es i := by
  induction es using List.reverseRecOn with
  | nil =>
    refine iff_of_false (fun h => h rfl) ?_
    rintro ⟨es₁, es₂, hes, -⟩
    simp at hes
  | append_singleton es e ih =>
    have hcounted := counted_exec hne mOnlinePlayers es
    rw [alive_concat, ← ih, exec, List.foldl_concat, ← exec]
    cases e with
    | createWar =>
      obtain ⟨r, -, -, heq⟩ := createWar_eq hne hcounted
      rw [heq]
      by_cases hi : i = warIdOf (creations es)
      · simp [hi]
      · simp [hi, Ne.symm hi]
    | removeWar j =>
      rw [removeWar_eq hcounted j]
      by_cases hi : i = j
      · simp [hi]
      · simp [hi, Ne.symm hi]

/-- Two creations under one id are a multiple of the number of ids apart. -/
theorem warIdOf_eq_iff {n m : Nat} : warIdOf (n + m) = warIdOf n ↔ m % idCount = 0 := by
  have hcast : warIdOf (n + m) = warIdOf n ↔ (n + m) % idCount + 1 = n % idCount + 1 := Int.natCast_inj
  rw [hcast, idCount]
  omega

/-- The event before which `k` events of a kind have happened. -/
theorem exists_split_of_lt_count {e : MgrEv} {k : Nat} (h : k < es.count e) :
    ∃ es₁ es₂, es = es₁ ++ e :: es₂ ∧ es₁.count e = k := by
  induction es generalizing k with
  | nil => exact absurd h (Nat.not_lt_zero k)
  | cons a es ih =>
    by_cases ha : a = e
    · subst ha
      cases k with
      | zero => exact ⟨[], es, rfl, rfl⟩
      | succ k =>
        rw [List.count_cons_self] at h
        obtain ⟨es₁, es₂, rfl, hcount⟩ := ih (Nat.lt_of_succ_lt_succ h)
        exact ⟨a :: es₁, es₂, rfl, by rw [List.count_cons_self, hcount]⟩
    · rw [List.count_cons_of_ne ha] at h
      obtain ⟨es₁, es₂, rfl, hcount⟩ := ih h
      exact ⟨a :: es₁, es₂, rfl, by rw [List.count_cons_of_ne ha, hcount]⟩

theorem creations_append (es₁ es₂ : List MgrEv) : creations (es₁ ++ .createWar :: es₂) =
    creations es₁ + (creations es₂ + 1) := by
  rw [creations, List.count_append, List.count_cons_self]
  rfl

/-- The next id is that of no war iff each war is removed in time. -/
theorem removedInTime_iff : RemovedInTime es ↔
    ∀ es₁ es₂, es = es₁ ++ .createWar :: es₂ → ¬ Alive es₁ (warIdOf (creations es₁)) := by
  constructor
  · rintro h es₁ es₂ rfl ⟨a, b, rfl, hi, hnot⟩
    rw [creations_append] at hi hnot
    rw [← hi] at hnot
    have hmod : (creations b + 1) % idCount = 0 := warIdOf_eq_iff.1 hi.symm
    have hpos : 0 < idCount := by decide
    rcases Nat.lt_trichotomy (creations b + 1) idCount with hlt | heq | hgt
    · rw [Nat.mod_eq_of_lt hlt] at hmod
      cases hmod
    · exact hnot (h a b es₂ (by simp) heq)
    · -- the war created one turn of ids later has its id too
      obtain ⟨b₁, b₂, rfl, hcount⟩ := exists_split_of_lt_count (k := idCount - 1) (show _ < b.count .createWar by
        unfold creations at hgt
        omega)
      refine hnot (List.mem_append_left _ (h a b₁ (b₂ ++ .createWar :: es₂) (by simp) ?_))
      rw [creations, hcount]
      omega
  · intro h es₁ es₂ es₃ hes hcount
    by_contra hnot
    refine h (es₁ ++ .createWar :: es₂) es₃ (by simp [hes]) ⟨es₁, es₂, rfl, ?_, ?_⟩
    · rw [creations_append, warIdOf_eq_iff.2 (by rw [hcount]; exact Nat.mod_self _)]
    · rwa [creations_append, warIdOf_eq_iff.2 (by rw [hcount]; exact Nat.mod_self _)]

/-- A creation takes an id of no war iff there is none under the next id. -/
theorem fresh_iff (hne : lRemote ≠ []) (mOnlinePlayers : Pid → Bool) (es : List MgrEv) :
    Fresh (exec lRemote mOnlinePlayers es) (mgrStep (exec lRemote mOnlinePlayers es) .createWar) ↔
      ¬ Alive es (warIdOf (creations es)) := by
  obtain ⟨r, -, -, heq⟩ := createWar_eq hne (counted_exec hne mOnlinePlayers es)
  rw [heq, ← there_iff hne mOnlinePlayers es, not_not]
  refine ⟨Fresh.free, fun hfree => ⟨hfree, fun i oWar hwar => ?_⟩⟩
  have hi : i ≠ warIdOf (creations es) := by
    rintro rfl
    rw [hfree] at hwar
    cases hwar
  exact (update_of_ne hi _ _).trans hwar

theorem created_createWar (hne : lRemote ≠ []) (mOnlinePlayers : Pid → Bool) (es : List MgrEv) :
    Created lRemote (exec lRemote mOnlinePlayers es) (mgrStep (exec lRemote mOnlinePlayers es) .createWar) := by
  obtain ⟨r, hr, -, heq⟩ := createWar_eq hne (counted_exec hne mOnlinePlayers es)
  rw [heq]
  refine ⟨⟨?_, ?_⟩, r, hr, update_self _ _ _, rfl⟩
  · exact Int.ofNat_le.2 (Nat.le_add_left 1 _)
  · exact Int.ofNat_le.2 (Nat.succ_le_of_lt (Nat.mod_lt _ (by decide)))

theorem received_bounds (hne : lRemote ≠ []) (mOnlinePlayers : Pid → Bool) (es : List MgrEv) (r : Remote) :
    lRemote.count r * (creations es / lRemote.length) ≤ (exec lRemote mOnlinePlayers es).received r ∧
      (exec lRemote mOnlinePlayers es).received r ≤
        lRemote.count r * ((creations es + lRemote.length - 1) / lRemote.length) := by
  rw [received, (counted_exec hne mOnlinePlayers es).sent]
  exact ⟨RoundRobin.count_turns_ge hne r _, RoundRobin.count_turns_le hne r _⟩

/-- **The ids of the wars.** No creation of a run takes the id of a war that is still there iff each war is removed in
time; and in any run the ids are in their range and the remotes take turns. -/
theorem war_ids (hne : lRemote ≠ []) (mOnlinePlayers : Pid → Bool) (es : List MgrEv) :
    ((∀ es₁ es₂, es = es₁ ++ .createWar :: es₂ →
        Fresh (exec lRemote mOnlinePlayers es₁) (mgrStep (exec lRemote mOnlinePlayers es₁) .createWar)) ↔
      RemovedInTime es) ∧
    (∀ es₁ es₂, es = es₁ ++ .createWar :: es₂ →
      Created lRemote (exec lRemote mOnlinePlayers es₁) (mgrStep (exec lRemote mOnlinePlayers es₁) .createWar)) ∧
    ∀ r, lRemote.count r * (creations es / lRemote.length) ≤ (exec lRemote mOnlinePlayers es).received r ∧
      (exec lRemote mOnlinePlayers es).received r ≤
        lRemote.count r * ((creations es + lRemote.length - 1) / lRemote.length) := by
  refine ⟨?_, fun es₁ _ _ => created_createWar hne mOnlinePlayers es₁, received_bounds hne mOnlinePlayers es⟩
  rw [removedInTime_iff]
  exact forall₃_congr fun es₁ _ _ => fresh_iff hne mOnlinePlayers es₁

end Run

/-- Two wars on two remotes. -/
theorem war_ids_two :
    ((∀ es₁ es₂, [.createWar, .removeWar 1, .createWar] = es₁ ++ .createWar :: es₂ →
        Fresh (exec [".war1", ".war2"] (fun _ => true) es₁)
          (mgrStep (exec [".war1", ".war2"] (fun _ => true) es₁) .createWar)) ↔
      RemovedInTime [.createWar, .removeWar 1, .createWar]) ∧
    (∀ es₁ es₂, [.createWar, .removeWar 1, .createWar] = es₁ ++ .createWar :: es₂ →
      Created [".war1", ".war2"] (exec [".war1", ".war2"] (fun _ => true) es₁)
        (mgrStep (exec [".war1", ".war2"] (fun _ => true) es₁) .createWar)) ∧
    ∀ r, [".war1", ".war2"].count r * (2 / 2) ≤
        (exec [".war1", ".war2"] (fun _ => true) [.createWar, .removeWar 1, .createWar]).received r ∧
      (exec [".war1", ".war2"] (fun _ => true) [.createWar, .removeWar 1, .createWar]).received r ≤
        [".war1", ".war2"].count r * ((2 + 2 - 1) / 2) :=
  war_ids (List.cons_ne_nil _ _) (fun _ => true) [.createWar, .removeWar 1, .createWar]

/-- The first war lives through all the ids. -/
theorem not_fresh : ¬ ∀ (lRemote : List Remote) (mOnlinePlayers : Pid → Bool) (es : List MgrEv), lRemote ≠ [] →
    ∀ es₁ es₂, es = es₁ ++ .createWar :: es₂ →
      Fresh (exec lRemote mOnlinePlayers es₁) (mgrStep (exec lRemote mOnlinePlayers es₁) .createWar) := by
  intro h
  have hne : [".war1"] ≠ [] := List.cons_ne_nil _ _
  have htime : RemovedInTime (.createWar :: (List.replicate (idCount - 1) .createWar ++ [.createWar])) :=
    removedInTime_iff.2 fun es₁ es₂ hes =>
      (fresh_iff hne (fun _ => true) es₁).1 (h [".war1"] (fun _ => true) _ hne es₁ es₂ hes)
  have hcount : creations (List.replicate (idCount - 1) .createWar) + 1 = idCount := by
    rw [creations, List.count_replicate_self]
    rfl
  have hmem := htime [] _ [] rfl hcount
  cases (List.mem_replicate.1 hmem).2

end WarWorld

end RoundGame.World
