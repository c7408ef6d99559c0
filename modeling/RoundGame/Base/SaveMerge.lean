import RoundGame.Base.SaveRun
import RoundGame.Lib.Dfs
import RoundGame.Lib.Fields

/-!
# Saves that are merged

`MergeSave` files each of some ids with the list of all of them; `CheckSave` saves the object with an id and then goes
on to those in its list, which it takes out of `m_mMergeSave` before. `m_mRepeated` keeps it from saving an object
again.

- With the counter at `0` and objects that `DoSave` saves, `CheckSave` is a depth-first visit of the merge lists, so
  each object that can be reached is saved once, and afterwards `m_mRepeated` is empty (`checkSave_visit`,
  `savesMerged_of_ready`).
- But `New` leaves `m_iSaveCnt` out and `DoSave` tests `m_fSaveFuc`. In the runs of the manager `CheckSave` does what it
  should iff there is nothing to save (`savesMerged_iff`).
-/

namespace RoundGame.Base

open Lua Relation

namespace CSaveMgr

variable {m : CSaveMgr} {seen : List Nat} {i n : Nat} {c : Int}

/-- One id is in the merge list of another. -/
def Merged (m : CSaveMgr) (i j : Nat) : Prop := j ∈ (m.mMergeSave i).getD []

/-- The ids that the merge lists lead to. -/
def Reaches (m : CSaveMgr) : Nat → Nat → Prop := ReflTransGen m.Merged

/-- `CheckSave` calls the save function of each registered object that can be reached, once, and it can do so again. -/
def SavesMerged (m : CSaveMgr) (iSaveId : Nat) : Prop :=
  ∃ n, ∀ depth, n ≤ depth → ∃ (m' : CSaveMgr) (objs : List CSaveObj),
    (checkSave depth iSaveId).exec (m, []) = (.ok ⟨⟩, (m', objs.map CSaveObj.fSaveFunc)) ∧ objs.Nodup ∧
    (∀ obj, obj ∈ objs ↔ ∃ j, m.Reaches iSaveId j ∧ m.mSaveTable.lookup j = some obj) ∧
    m'.mRepeated = (fun _ => false) ∧
    ∀ obj ∈ objs, obj.fSaveFunc ∈ ((checkSave depth obj.iSaveId).exec (m', [])).2.2

/-! ## The visit -/

/-- The merge list of a registered object. -/
def mergeList (m : CSaveMgr) (i : Nat) : Option (List Nat) :=
  if (m.mSaveTable.lookup i).isSome then some ((m.mMergeSave i).getD []) else none

/-- The manager while the objects `seen` are being saved, and `c` calls of `CheckSave` are open. -/
def saving (m : CSaveMgr) (seen : List Nat) (c : Int) : CSaveMgr :=
  { m with mMergeSave := fun i => if i ∈ seen then none else m.mMergeSave i
           mRepeated := fun i => decide (i ∈ seen)
           iSaveCnt := some c }

theorem update_saving (m : CSaveMgr) (seen : List Nat) (c : Int) (i : Nat) :
    { m.saving seen c with mMergeSave := Function.update (m.saving seen c).mMergeSave i none
                           mRepeated := Function.update (m.saving seen c).mRepeated i true } =
      m.saving (seen ++ [i]) c := by
  have hmerge : Function.update (m.saving seen c).mMergeSave i none = (m.saving (seen ++ [i]) c).mMergeSave := by
    funext j
    by_cases hj : j = i
    · subst hj
      simp [saving]
    · simp [saving, hj]
  have hrep : Function.update (m.saving seen c).mRepeated i true = (m.saving (seen ++ [i]) c).mRepeated := by
    funext j
    by_cases hj : j = i
    · subst hj
      simp [saving]
    · simp [saving, hj]
  rw [hmerge, hrep]
  rfl

theorem saveAll_concat (m : CSaveMgr) (seen : List Nat) {obj : CSaveObj} (h : m.mSaveTable.lookup i = some obj) :
    m.saveAll (seen ++ [i]) = m.saveAll seen ++ obj.doSave := by
  rw [saveAll, List.flatMap_append, List.flatMap_singleton, h]
  rfl

/-- The end of `CheckSave`. -/
def closed (m : CSaveMgr) (seen : List Nat) (c : Int) : CSaveMgr :=
  if c ≤ 0 then { m.saving seen c with mRepeated := fun _ => false } else m.saving seen c

theorem checkSave_none (h : m.mSaveTable.lookup i = none) (n : Nat) (l : List Nat) :
    (checkSave (n + 1) i).exec (m, l) = (.ok ⟨⟩, (m, l)) := by
  unfold checkSave
  rw [LuaM.exec_bind, LuaM.exec_get]
  simp only [h]
  rfl

theorem checkSave_repeated {obj : CSaveObj} (hobj : m.mSaveTable.lookup i = some obj) (h : m.mRepeated i = true)
    (n : Nat) (l : List Nat) : (checkSave (n + 1) i).exec (m, l) = (.ok ⟨⟩, (m, l)) := by
  unfold checkSave
  rw [LuaM.exec_bind, LuaM.exec_get]
  simp only [hobj]
  rw [LuaM.exec_bind, LuaM.exec_get]
  simp only [h, if_true]
  rfl

theorem addSaveCnt_saving (m : CSaveMgr) (seen : List Nat) (c k : Int) (l : List Nat) :
    (addSaveCnt k).exec (m.saving seen c, l) = (.ok ⟨⟩, (m.saving seen (c + k), l)) := by
  unfold addSaveCnt
  rw [LuaM.exec_bind, LuaM.exec_get]
  rfl

/-- The object itself and then its merge list, when the calls for the list bring the manager to `out`. -/
theorem checkSave_node {obj : CSaveObj} {out : List Nat} (hobj : m.mSaveTable.lookup i = some obj) (hs : i ∉ seen)
    (hlist : (((m.mMergeSave i).getD []).forM (checkSave n)).exec
        (m.saving (seen ++ [i]) (c + 1), m.saveAll (seen ++ [i])) =
      (.ok ⟨⟩, (m.saving out (c + 1), m.saveAll out))) :
    (checkSave (n + 1) i).exec (m.saving seen c, m.saveAll seen) = (.ok ⟨⟩, (m.closed out c, m.saveAll out)) := by
  unfold checkSave
  rw [LuaM.exec_bind, LuaM.exec_get]
  have hlookup : (m.saving seen c).mSaveTable.lookup i = some obj := hobj
  have hrep : (m.saving seen c).mRepeated i = false := decide_eq_false hs
  have hmerge : (m.saving seen (c + 1)).mMergeSave i = m.mMergeSave i := if_neg hs
  simp only [hlookup]
  rw [LuaM.exec_bind, LuaM.exec_get]
  simp only [hrep, Bool.false_eq_true, if_false]
  rw [LuaM.exec_bind, LuaM.exec_modify]
  simp only [← saveAll_concat m seen hobj]
  rw [LuaM.exec_bind, addSaveCnt_saving]
  simp only
  rw [LuaM.exec_bind, LuaM.exec_modify]
  simp only
  rw [LuaM.exec_bind, LuaM.exec_get]
  simp only [hmerge]
  rw [LuaM.exec_bind, LuaM.exec_modify]
  simp only [update_saving]
  rw [LuaM.exec_bind, hlist]
  simp only
  rw [LuaM.exec_bind, addSaveCnt_saving]
  simp only [Int.add_neg_cancel_right]
  rw [LuaM.exec_bind, LuaM.exec_get]
  have hcnt : (m.saving out c).iSaveCnt.getD 0 = c := rfl
  simp only [hcnt, closed]
  split <;> rfl

/-- The registered ids. -/
def ids (m : CSaveMgr) : List Nat := m.mSaveTable.map Prod.fst

theorem mem_ids (m : CSaveMgr) (i : Nat) (h : (m.mergeList i).isSome) : i ∈ m.ids := by
  unfold mergeList at h
  split at h
  · rename_i hsome
    exact Fields.lookup_isSome_iff.1 hsome
  · cases h

theorem mergeList_none (h : m.mSaveTable.lookup i = none) : m.mergeList i = none := by
  rw [mergeList, h]
  rfl

theorem mergeList_some {obj : CSaveObj} (h : m.mSaveTable.lookup i = some obj) :
    m.mergeList i = some ((m.mMergeSave i).getD []) := by
  rw [mergeList, h]
  rfl

theorem forM_saving {f : Nat → LuaM (CSaveMgr × List Nat) PUnit} {g : List Nat → Nat → List Nat}
    (hf : ∀ seen, Dfs.room m.ids seen < n → ∀ i, Dfs.Visited m.mergeList seen [i] (g seen i) ∧
      (f i).exec (m.saving seen c, m.saveAll seen) = (.ok ⟨⟩, (m.saving (g seen i) c, m.saveAll (g seen i))))
    (h : Dfs.room m.ids seen < n) (l : List Nat) :
    (l.forM f).exec (m.saving seen c, m.saveAll seen) =
      (.ok ⟨⟩, (m.saving (l.foldl g seen) c, m.saveAll (l.foldl g seen))) := by
  induction l generalizing seen with
  | nil => rfl
  | cons i l ih =>
    obtain ⟨hvisited, hexec⟩ := hf seen h i
    show (f i >>= fun _ => l.forM f).exec _ = _
    rw [LuaM.exec_bind, hexec]
    exact ih (Nat.lt_of_le_of_lt (Dfs.room_le hvisited.grown.subset) h)

/-- A call that another one has made visits what has not been saved yet. -/
theorem checkSave_saving (hc : 0 < c) (h : Dfs.room m.ids seen < n) (i : Nat) :
    (checkSave n i).exec (m.saving seen c, m.saveAll seen) =
      (.ok ⟨⟩, (m.saving (Dfs.visit m.mergeList n seen i) c, m.saveAll (Dfs.visit m.mergeList n seen i))) := by
  induction n generalizing seen c i with
  | zero => exact absurd h (Nat.not_lt_zero _)
  | succ n ih =>
    rw [Dfs.visit]
    cases hobj : m.mSaveTable.lookup i with
    | none =>
      simp only [mergeList_none hobj]
      exact checkSave_none (m := m.saving seen c) hobj n _
    | some obj =>
      simp only [mergeList_some hobj]
      by_cases hs : i ∈ seen
      · simp only [if_pos hs]
        exact checkSave_repeated (m := m.saving seen c) hobj (decide_eq_true hs) n _
      · simp only [if_neg hs]
        have hroom : Dfs.room m.ids (seen ++ [i]) < n := by
          have hlt := Dfs.room_lt (mem_ids m i (by rw [mergeList_some hobj]; rfl)) hs
          omega
        rw [checkSave_node hobj hs (forM_saving (fun seen hseen j => ⟨?_, ?_⟩) hroom _), closed, if_neg (by omega)]
        · exact Dfs.visited_visit (mem_ids m) hseen j
        · exact ih (by omega) hseen j

/-- A call from outside visits what can be reached and leaves `m_mRepeated` empty. -/
theorem checkSave_visit (hcnt : m.iSaveCnt = some 0) (hrep : m.mRepeated = fun _ => false)
    (hn : m.mSaveTable.length < n) (i : Nat) : ∃ m',
      (checkSave n i).exec (m, []) = (.ok ⟨⟩, (m', m.saveAll (Dfs.visit m.mergeList n [] i))) ∧
      m'.iSaveCnt = some 0 ∧ m'.mRepeated = (fun _ => false) ∧ m'.mSaveTable = m.mSaveTable := by
  obtain ⟨n, rfl⟩ : ∃ k, n = k + 1 := ⟨n - 1, by omega⟩
  have hm : m.saving [] 0 = m := by
    simp only [saving, List.not_mem_nil, if_false, decide_false, ← hcnt, ← hrep]
  have hlen : m.ids.length = m.mSaveTable.length := List.length_map _
  have hroom : Dfs.room m.ids [] ≤ m.mSaveTable.length := hlen ▸ Dfs.room_nil_le m.ids
  rw [Dfs.visit]
  cases hobj : m.mSaveTable.lookup i with
  | none =>
    simp only [mergeList_none hobj]
    exact ⟨m, checkSave_none hobj n _, hcnt, hrep, rfl⟩
  | some obj =>
    simp only [mergeList_some hobj, if_neg List.not_mem_nil]
    have hlt : Dfs.room m.ids ([] ++ [i]) < n := by
      have hlt := Dfs.room_lt (mem_ids m i (by rw [mergeList_some hobj]; rfl)) (List.not_mem_nil (a := i))
      omega
    have hlist := forM_saving (c := 0 + 1) (fun seen hseen j =>
      ⟨Dfs.visited_visit (mem_ids m) hseen j, checkSave_saving (by decide) hseen j⟩) hlt ((m.mMergeSave i).getD [])
    have hnode := checkSave_node hobj List.not_mem_nil hlist
    rw [hm] at hnode
    exact ⟨_, hnode, rfl, rfl, rfl⟩

/-! ## A manager that is ready -/

/-- The counter is at its start, each object is filed under its id and is one that `DoSave` saves, and there are merge
lists of registered objects only. -/
structure Ready (m : CSaveMgr) : Prop where
  cnt : m.iSaveCnt = some 0
  repeated : m.mRepeated = fun _ => false
  fuc : ∀ p ∈ m.mSaveTable, p.2.fSaveFuc.isSome
  key : ∀ p ∈ m.mSaveTable, p.2.iSaveId = p.1
  lists : ∀ i, m.mSaveTable.lookup i = none → m.mMergeSave i = none

theorem Ready.edge_eq (h : m.Ready) : Dfs.Edge m.mergeList = m.Merged := by
  funext i j
  refine propext ⟨?_, fun hj => ?_⟩
  · rintro ⟨l, hl, hj⟩
    cases hobj : m.mSaveTable.lookup i with
    | none =>
      rw [mergeList_none hobj] at hl
      cases hl
    | some obj =>
      rw [mergeList_some hobj] at hl
      cases hl
      exact hj
  · cases hobj : m.mSaveTable.lookup i with
    | none =>
      rw [Merged, h.lists i hobj] at hj
      cases hj
    | some obj => exact ⟨_, mergeList_some hobj, hj⟩

theorem saveAll_of_fuc (h : ∀ p ∈ m.mSaveTable, p.2.fSaveFuc.isSome) (l : List Nat) :
    m.saveAll l = (l.filterMap fun i => m.mSaveTable.lookup i).map CSaveObj.fSaveFunc := by
  induction l with
  | nil => rfl
  | cons i l ih =>
    rw [saveAll, List.flatMap_cons, List.filterMap_cons, ← saveAll, ih]
    cases hobj : m.mSaveTable.lookup i with
    | none => rfl
    | some obj =>
      obtain ⟨f, hf⟩ := Option.isSome_iff_exists.1 (h _ (Fields.mem_of_lookup hobj))
      have hdo : obj.doSave = [obj.fSaveFunc] := by rw [CSaveObj.doSave, hf]
      simp [hdo]

theorem mergeList_isSome : (m.mergeList i).isSome ↔ ∃ obj, m.mSaveTable.lookup i = some obj := by
  cases hobj : m.mSaveTable.lookup i with
  | none => simp [mergeList_none hobj]
  | some obj => simp [mergeList_some hobj]

/-- A manager that is ready saves what is merged. -/
theorem savesMerged_of_ready (h : m.Ready) (iSaveId : Nat) : m.SavesMerged iSaveId := by
  refine ⟨m.mSaveTable.length + 1, fun depth hdepth => ?_⟩
  have hids : m.ids.length < depth := by
    rw [ids, List.length_map]
    exact hdepth
  obtain ⟨m', hexec, hcnt', hrep', htable'⟩ := checkSave_visit h.cnt h.repeated hdepth iSaveId
  rw [saveAll_of_fuc h.fuc] at hexec
  refine ⟨m', _, hexec, ?_, fun obj => ?_, hrep', fun obj hobj => ?_⟩
  · refine (Dfs.nodup_visit (mem_ids m) hids iSaveId).filterMap ?_
    intro i j obj hi hj
    exact (h.key _ (Fields.mem_of_lookup hi)).symm.trans (h.key _ (Fields.mem_of_lookup hj))
  · rw [List.mem_filterMap]
    refine exists_congr fun j => and_congr_left fun hobj => ?_
    rw [Dfs.mem_visit (mem_ids m) hids, h.edge_eq, and_iff_right (mergeList_isSome.2 ⟨obj, hobj⟩)]
    rfl
  · -- the later call starts at the object itself
    obtain ⟨j, -, hj⟩ := List.mem_filterMap.1 hobj
    obtain rfl : obj.iSaveId = j := h.key _ (Fields.mem_of_lookup hj)
    have hfuc' : ∀ p ∈ m'.mSaveTable, p.2.fSaveFuc.isSome := by
      rw [htable']
      exact h.fuc
    have hids' : m'.ids.length < depth := by
      rw [ids, htable']
      exact hids
    obtain ⟨m'', hexec', -⟩ := checkSave_visit hcnt' hrep' (htable' ▸ hdepth) obj.iSaveId
    rw [hexec', saveAll_of_fuc hfuc']
    rw [← htable'] at hj
    refine List.mem_map_of_mem (List.mem_filterMap.2 ⟨obj.iSaveId, ?_, hj⟩)
    rw [Dfs.mem_visit (mem_ids m') hids']
    exact ⟨mergeList_isSome.2 ⟨obj, hj⟩, ReflTransGen.refl⟩

end CSaveMgr

/-! ## Runs of the manager -/

namespace SaveSys

variable {s t : SaveSys} {e : Ev} {es : List Ev}

theorem mRepeated_step (h : Inv s) (hrep : s.mgr.mRepeated = fun _ => false) (hs : step s e = some t) :
    t.mgr.mRepeated = fun _ => false := by
  cases e with
  | delSave i =>
    obtain rfl := Option.some.inj hs
    rcases delSave_mgr s.mgr i with hm | ⟨e, hm⟩ <;> simp only [hm] <;> exact hrep
  | saveAll order =>
    obtain ⟨-, rfl⟩ := saveAll_eq hs
    exact hrep
  | fire n r =>
    obtain ⟨reg, u, -, -, rfl⟩ := fire_eq h hs
    exact hrep
  | _ =>
    obtain rfl := Option.some.inj hs
    exact hrep

/-- After any run, `CheckSave` saves what is merged iff no registered object can be reached. -/
theorem savesMerged_iff (hrun : StepSys.run step init es = some s) (iSaveId : Nat) :
    s.mgr.SavesMerged iSaveId ↔ ∀ j, s.mgr.Reaches iSaveId j → s.mgr.mSaveTable.lookup j = none := by
  obtain ⟨hinv, hrep⟩ := StepSys.run_inv (I := fun s => Inv s ∧ s.mgr.mRepeated = fun _ => false)
    (fun h hs => ⟨inv_step h.1 hs, mRepeated_step h.1 h.2 hs⟩) ⟨inv_init, rfl⟩ hrun
  constructor
  · rintro ⟨n, hn⟩ j hj
    obtain ⟨m', objs, hexec, -, hobjs, -⟩ := hn n (Nat.le_refl n)
    -- no save function has been called
    have hquiet := CSaveMgr.checkSave_quiet hinv.cnt hinv.fucs n iSaveId
    rw [hexec, Prod.mk.injEq] at hquiet
    have hnil : objs = [] := List.map_eq_nil_iff.1 hquiet.2
    by_contra hsome
    obtain ⟨obj, hobj⟩ := Option.ne_none_iff_exists'.1 hsome
    have hmem := (hobjs obj).2 ⟨j, hj, hobj⟩
    rw [hnil] at hmem
    cases hmem
  · intro h
    refine ⟨1, fun depth hdepth => ?_⟩
    obtain ⟨depth, rfl⟩ : ∃ k, depth = k + 1 := ⟨depth - 1, by omega⟩
    refine ⟨s.mgr, [], CSaveMgr.checkSave_none (h iSaveId Relation.ReflTransGen.refl) depth [], List.nodup_nil,
      fun obj => ?_, hrep, fun obj hobj => absurd hobj List.not_mem_nil⟩
    refine iff_of_false List.not_mem_nil ?_
    rintro ⟨j, hj, hobj⟩
    rw [h j hj] at hobj
    cases hobj

/-- Two objects, merged. -/
theorem savesMerged_iff_one : ∃ s,
    StepSys.run step init [.addSave (some 5), .addSave (some 5), .mergeSave 2 [some 4]] = some s ∧ s.mgr.Reaches 2 4 ∧
      (s.mgr.SavesMerged 2 ↔ ∀ j, s.mgr.Reaches 2 j → s.mgr.mSaveTable.lookup j = none) := by
  have hrun : StepSys.run step init [.addSave (some 5), .addSave (some 5), .mergeSave 2 [some 4]] = some _ := rfl
  refine ⟨_, hrun, ReflTransGen.single ?_, savesMerged_iff hrun 2⟩
  show 4 ∈ [2, 4]
  decide

theorem not_savesMerged : ¬ ∀ (es : List Ev) (s : SaveSys) (iSaveId : Nat), StepSys.run step init es = some s →
    s.mgr.SavesMerged iSaveId := by
  intro h
  obtain ⟨n, hn⟩ := h [.addSave (some 5)] _ 2 rfl
  obtain ⟨m', objs, hexec, -⟩ := hn (n + 1) n.le_succ
  have hobj : (init.addSave (some 5)).mgr.mSaveTable.lookup 2 = some (CSaveObj.new 2 (some 5) 0) := rfl
  cases hexec.symm.trans (CSaveMgr.checkSave_raises rfl hobj rfl n [])

end SaveSys

end RoundGame.Base
