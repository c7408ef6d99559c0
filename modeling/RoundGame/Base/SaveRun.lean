import RoundGame.Base.SaveMgr

/-!
# Runs of the save manager

- `Inv`: the `n`-th call of `AddSave` returns `2 n + 1` and files its object under `2 n + 2`, where it stays, for
  `DelSave` either finds no object or raises in its `Release`; no object has a `m_fSaveFuc`, and the timer of an object
  waits for its only timeout or has nothing pending.
- The ids that `AddSave` returns address the registrations iff it is never called (`addressed_iff`).
- Every registration has a timeout pending, with a delay of 1 to 20 minutes, iff none of them has fired and each was
  asked for with at most 2 minutes (`periodic_iff`).
-/

namespace RoundGame.Base

open StepSys Function Lua

/-! ## What `CheckSave` does -/

namespace CSaveMgr

variable {m : CSaveMgr}

/-- `CheckSave` of a registered object raises at the counter, after `DoSave`. -/
theorem checkSave_raises (hcnt : m.iSaveCnt = none) {i : Nat} {obj : CSaveObj} (hobj : m.mSaveTable.lookup i = some obj)
    (hrep : m.mRepeated i = false) (depth : Nat) (l : List Nat) :
    (checkSave (depth + 1) i).exec (m, l) =
      (.error "attempt to perform arithmetic on a nil value (field 'm_iSaveCnt')", (m, l ++ obj.doSave)) := by
  have hadd : (addSaveCnt 1).exec (m, l ++ obj.doSave) =
      (.error "attempt to perform arithmetic on a nil value (field 'm_iSaveCnt')", (m, l ++ obj.doSave)) := by
    unfold addSaveCnt
    rw [LuaM.exec_bind, LuaM.exec_get]
    simp only [hcnt]
    rfl
  unfold checkSave
  rw [LuaM.exec_bind, LuaM.exec_get]
  simp only [hobj]
  rw [LuaM.exec_bind, LuaM.exec_get]
  simp only [hrep, Bool.false_eq_true, if_false]
  rw [LuaM.exec_bind, LuaM.exec_modify]
  simp only
  rw [LuaM.exec_bind, hadd]

/-- So it changes nothing, and calls no save function of objects without `m_fSaveFuc`. -/
theorem checkSave_quiet (hcnt : m.iSaveCnt = none) (hfuc : ∀ p ∈ m.mSaveTable, p.2.fSaveFuc = none) (depth i : Nat) :
    ((checkSave depth i).exec (m, [])).2 = (m, []) := by
  cases depth with
  | zero => rfl
  | succ depth =>
    cases hobj : m.mSaveTable.lookup i with
    | none =>
      unfold checkSave
      rw [LuaM.exec_bind, LuaM.exec_get]
      simp only [hobj]
      rfl
    | some obj =>
      cases hrep : m.mRepeated i with
      | true =>
        unfold checkSave
        rw [LuaM.exec_bind, LuaM.exec_get]
        simp only [hobj]
        rw [LuaM.exec_bind, LuaM.exec_get]
        simp only [hrep, if_true]
        rfl
      | false =>
        have hdo : obj.doSave = [] := by
          have hmem : (i, obj) ∈ m.mSaveTable := by
            obtain ⟨l, r, hl, -⟩ := List.lookup_eq_some_iff.1 hobj
            rw [hl]
            simp
          rw [CSaveObj.doSave, hfuc (i, obj) hmem]
        rw [checkSave_raises hcnt hobj hrep, hdo]
        rfl

end CSaveMgr

theorem Registration.delSave_id (r : Registration) (i : Nat) : (r.delSave i).id = r.id := by
  unfold delSave
  split <;> rfl

theorem Registration.delSave_obj (r : Registration) (i : Nat) : (r.delSave i).obj = r.obj := by
  unfold delSave
  split <;> rfl

theorem Registration.delSave_deleted {r : Registration} {i : Nat} (h : (r.delSave i).deleted = false) :
    r.deleted = false := by
  unfold delSave at h
  split at h
  · cases h
  · exact h

namespace SaveSys

/-! ## The timer of an object -/

/-- The timer of an object `y` ticks after its `Init`. -/
def waiting (x iDelay y : Nat) : TimerSys String :=
  { initTimer { TimerSys.new with now := x } iDelay with now := x + y }

theorem waiting_pending (x d y : Nat) : (waiting x d y).pending = [⟨0, 1, "ApplySave", x + d⟩] := rfl

theorem waiting_armed (x d y : Nat) : TimerSys.Armed (waiting x d y) 0 :=
  ⟨⟨0, 1, "ApplySave", x + d⟩, List.mem_cons_self, rfl, rfl⟩

theorem pending_finish (t : TimerSys String) (r : Nat) : ((t.step (.finish r)).getD t).pending = t.pending := by
  simp only [TimerSys.step]
  cases t.running.find? (fun u => u.reg = r) <;> rfl

/-- When the timeout fires, its closure starts, and nothing is pending any more. -/
theorem waiting_fire {x d y r : Nat} {t : TimerSys String} (h : (waiting x d y).step (.fire r) = some t) :
    t.calls ≠ (waiting x d y).calls ∧ ((t.step (.finish r)).getD t).pending = [] := by
  simp only [TimerSys.step, waiting_pending, List.find?_cons, List.find?_nil] at h
  split at h
  · next hp =>
    simp only [decide_eq_true_eq] at hp
    obtain rfl := Option.some.inj h
    obtain ⟨rfl, -⟩ := hp
    refine ⟨List.cons_ne_nil _ _, ?_⟩
    rw [pending_finish]
    show [(⟨0, 1, "ApplySave", x + d⟩ : Timeout String)].erase ⟨0, 1, "ApplySave", x + d⟩ = []
    rw [List.erase_cons_head]
  · cases h

/-! ## The invariant -/

structure Inv (s : SaveSys) : Prop where
  table : s.mgr.mSaveTable = s.regs.map fun r => (r.obj.iSaveId, r.obj)
  ids : ∀ n r, s.regs[n]? = some r → r.id = 2 * n + 1 ∧ r.obj.iSaveId = 2 * n + 2
  fuc : ∀ r ∈ s.regs, r.obj.fSaveFuc = none
  dispatch : s.mgr.iDispatchId = 2 * s.regs.length
  cnt : s.mgr.iSaveCnt = none
  timer : ∀ n r, s.regs[n]? = some r → (∃ x y, s.timers n = waiting x r.obj.iDelay y) ∨ (s.timers n).pending = []
  fresh : ∀ n, s.regs.length ≤ n → ∃ x, s.timers n = { TimerSys.new with now := x }

theorem inv_init : Inv init :=
  ⟨rfl, by simp [init], by simp [init], rfl, rfl, by simp [init], fun _ _ => ⟨0, rfl⟩⟩

variable {s t : SaveSys} {e : Ev}

theorem Inv.fucs (h : Inv s) : ∀ p ∈ s.mgr.mSaveTable, p.2.fSaveFuc = none := by
  rw [h.table]
  intro p hp
  obtain ⟨r, hr, rfl⟩ := List.mem_map.1 hp
  exact h.fuc r hr

/-- `DelSave` finds no object or raises. -/
theorem delSave_mgr (m : CSaveMgr) (i : Nat) : m.delSave i = .ok m ∨ ∃ e, m.delSave i = .error e := by
  unfold CSaveMgr.delSave
  cases m.mSaveTable.lookup i with
  | none => exact Or.inl rfl
  | some obj => exact Or.inr ⟨_, rfl⟩

/-- The registrations after `AddSave`: those before, and the new one. -/
theorem addSave_get {d : Option Int} {n : Nat} {r : Registration} (hr : (s.addSave d).regs[n]? = some r) :
    s.regs[n]? = some r ∨ n = s.regs.length ∧
      r = ⟨s.mgr.iDispatchId + 1, CSaveObj.new (s.mgr.iDispatchId + 2) d s.regs.length, false⟩ := by
  simp only [addSave] at hr
  rcases Nat.lt_trichotomy n s.regs.length with hlt | heq | hgt
  · rw [List.getElem?_append_left hlt] at hr
    exact Or.inl hr
  · subst heq
    rw [List.getElem?_concat_length] at hr
    exact Or.inr ⟨rfl, (Option.some.inj hr).symm⟩
  · rw [List.getElem?_eq_none (by simp; omega)] at hr
    cases hr

theorem inv_addSave (h : Inv s) (d : Option Int) : Inv (s.addSave d) := by
  have hmem : ∀ r ∈ (s.addSave d).regs, r ∈ s.regs ∨
      r = ⟨s.mgr.iDispatchId + 1, CSaveObj.new (s.mgr.iDispatchId + 2) d s.regs.length, false⟩ := by
    intro r hr
    rcases List.mem_append.1 hr with hr | hr
    · exact Or.inl hr
    · exact Or.inr (List.mem_singleton.1 hr)
  have hold : ∀ p ∈ s.mgr.mSaveTable, p.1 ≠ s.mgr.iDispatchId + 2 := by
    rw [h.table, h.dispatch]
    intro p hp
    obtain ⟨r, hr, rfl⟩ := List.mem_map.1 hp
    obtain ⟨n, hn, hnr⟩ := List.mem_iff_getElem.1 hr
    have hid := (h.ids n r (by rw [List.getElem?_eq_getElem hn, hnr])).2
    simp only
    omega
  constructor
  · have hfilter : s.mgr.mSaveTable.filter (fun p => p.1 ≠ s.mgr.iDispatchId + 2) = s.mgr.mSaveTable :=
      List.filter_eq_self.2 fun p hp => decide_eq_true (hold p hp)
    show s.mgr.mSaveTable.filter (fun p => p.1 ≠ s.mgr.iDispatchId + 2) ++ [_] = _
    rw [hfilter, h.table]
    simp only [addSave, List.map_append]
    rfl
  · intro n r hr
    rcases addSave_get hr with hr | ⟨rfl, rfl⟩
    · exact h.ids n r hr
    · rw [h.dispatch]
      exact ⟨rfl, rfl⟩
  · intro r hr
    rcases hmem r hr with hr | rfl
    · exact h.fuc r hr
    · rfl
  · have hdisp := h.dispatch
    simp only [addSave, CSaveMgr.addSave, CSaveMgr.dispatchId, List.length_append, List.length_singleton]
    omega
  · exact h.cnt
  · intro n r hr
    simp only [addSave]
    rcases addSave_get hr with hr | ⟨rfl, rfl⟩
    · have hn : n ≠ s.regs.length := Nat.ne_of_lt (List.getElem?_eq_some_iff.1 hr).1
      rw [update_of_ne hn]
      exact h.timer n r hr
    · rw [update_self]
      obtain ⟨x, hx⟩ := h.fresh s.regs.length (Nat.le_refl _)
      exact Or.inl ⟨x, 0, by rw [hx]; rfl⟩
  · intro n hn
    simp only [addSave, List.length_append, List.length_singleton] at hn ⊢
    rw [update_of_ne (by omega)]
    exact h.fresh n (by omega)

/-- A timeout of a registration starts `CheckSave`, which does nothing; then the timer has nothing pending. -/
theorem fire_eq (h : Inv s) {n r : Nat} (hs : step s (.fire n r) = some t) :
    ∃ reg u, s.regs[n]? = some reg ∧ u.pending = [] ∧
      t = { s with timers := update s.timers n u, fired := s.fired ++ [(n, !reg.deleted, false)] } := by
  simp only [step] at hs
  split at hs
  · next reg u hreg hu =>
    rcases h.timer n reg hreg with ⟨x, y, hw⟩ | hnil
    · rw [hw] at hu
      obtain ⟨hcalls, hpend⟩ := waiting_fire hu
      rw [hw, if_neg hcalls] at hs
      obtain rfl := Option.some.inj hs
      refine ⟨reg, (u.step (.finish r)).getD u, hreg, hpend, ?_⟩
      unfold applySave
      rw [CSaveMgr.checkSave_quiet h.cnt h.fucs]
      simp
    · simp only [TimerSys.step, hnil, List.find?_nil, Option.map_none] at hu
      cases hu
  · cases hs

/-- `SaveAll` adds what it called to the account of the calls. -/
theorem saveAll_eq {order : List Nat} (hs : step s (.saveAll order) = some t) :
    order.Perm (s.mgr.mSaveTable.map Prod.fst) ∧
      t = { s with savedAll := s.savedAll ++ [(s.live.map (·.obj.fSaveFunc), s.mgr.saveAll order)] } := by
  simp only [step] at hs
  split at hs
  · next hp => exact ⟨hp, (Option.some.inj hs).symm⟩
  · cases hs

theorem inv_delSave (h : Inv s) (i : Nat) : Inv { s with regs := s.regs.map fun r => r.delSave i } := by
  have hget : ∀ (n : Nat) r, (s.regs.map fun r => r.delSave i)[n]? = some r → ∃ r' : Registration,
      s.regs[n]? = some r' ∧ r = r'.delSave i := by
    intro n r hr
    rw [List.getElem?_map, Option.map_eq_some_iff] at hr
    obtain ⟨r', hr', rfl⟩ := hr
    exact ⟨r', hr', rfl⟩
  constructor
  · rw [h.table, List.map_map]
    apply List.map_congr_left
    intro r hr
    simp only [comp_apply, Registration.delSave_obj]
  · intro n r hr
    obtain ⟨r', hr', rfl⟩ := hget n r hr
    rw [Registration.delSave_id, Registration.delSave_obj]
    exact h.ids n r' hr'
  · intro r hr
    obtain ⟨r', hr', rfl⟩ := List.mem_map.1 hr
    rw [Registration.delSave_obj]
    exact h.fuc r' hr'
  · simpa using h.dispatch
  · exact h.cnt
  · intro n r hr
    obtain ⟨r', hr', rfl⟩ := hget n r hr
    rw [Registration.delSave_obj]
    exact h.timer n r' hr'
  · simpa using h.fresh

theorem inv_step (h : Inv s) (hs : step s e = some t) : Inv t := by
  cases e with
  | addSave d =>
    obtain rfl := Option.some.inj hs
    exact inv_addSave h d
  | delSave i =>
    obtain rfl := Option.some.inj hs
    have hmgr : (s.mgr.delSave i).toOption.getD s.mgr = s.mgr := by
      rcases delSave_mgr s.mgr i with hm | ⟨e, hm⟩ <;> rw [hm] <;> rfl
    simp only [hmgr]
    exact inv_delSave h i
  | mergeSave i objs =>
    obtain rfl := Option.some.inj hs
    exact ⟨h.table, h.ids, h.fuc, h.dispatch, h.cnt, h.timer, h.fresh⟩
  | saveAll order =>
    obtain ⟨-, rfl⟩ := saveAll_eq hs
    exact ⟨h.table, h.ids, h.fuc, h.dispatch, h.cnt, h.timer, h.fresh⟩
  | tick d =>
    obtain rfl := Option.some.inj hs
    refine ⟨h.table, h.ids, h.fuc, h.dispatch, h.cnt, ?_, ?_⟩
    · intro n r hr
      rcases h.timer n r hr with ⟨x, y, hw⟩ | hnil
      · exact Or.inl ⟨x, y + d, by simp only [hw, waiting, Nat.add_assoc]⟩
      · exact Or.inr hnil
    · intro n hn
      obtain ⟨x, hx⟩ := h.fresh n hn
      exact ⟨x + d, by simp only [hx]⟩
  | fire n r =>
    obtain ⟨reg, u, hreg, hu, rfl⟩ := fire_eq h hs
    refine ⟨h.table, h.ids, h.fuc, h.dispatch, h.cnt, ?_, ?_⟩
    · intro k r' hr'
      by_cases hk : k = n
      · subst hk
        exact Or.inr (by simp only [update_self]; exact hu)
      · simp only [update_of_ne hk]
        exact h.timer k r' hr'
    · intro k hk
      have hne : k ≠ n := by
        rintro rfl
        exact absurd (List.getElem?_eq_some_iff.1 hreg).1 (Nat.not_lt.2 hk)
      simp only [update_of_ne hne]
      exact h.fresh k hk

/-! ## Registrations by their ids -/

/-- The registrations not deleted are the entries of the table, each under the id that `AddSave` returned for it, and
each `SaveAll` called the functions of these, once each, and no other. -/
structure Addressed (s : SaveSys) : Prop where
  key : ∀ r ∈ s.live, s.mgr.mSaveTable.lookup r.id = some r.obj
  only : ∀ p ∈ s.mgr.mSaveTable, ∃ r ∈ s.live, r.id = p.1 ∧ r.obj = p.2
  saveAll : ∀ x ∈ s.savedAll, x.2.Perm x.1

/-- The id that `AddSave` returns is odd, the key of the object even. -/
theorem Addressed.regs_eq_nil (h : Inv s) (ha : Addressed s) : s.regs = [] := by
  by_contra hne
  obtain ⟨r, hr⟩ := List.exists_mem_of_ne_nil _ hne
  obtain ⟨r', hr', hid, -⟩ := ha.only (r.obj.iSaveId, r.obj) (h.table ▸ List.mem_map_of_mem hr)
  obtain ⟨n, hn, hnr⟩ := List.mem_iff_getElem.1 hr
  obtain ⟨m, hm, hmr⟩ := List.mem_iff_getElem.1 (List.mem_filter.1 hr').1
  have hkey := (h.ids n r (by rw [List.getElem?_eq_getElem hn, hnr])).2
  have hret := (h.ids m r' (by rw [List.getElem?_eq_getElem hm, hmr])).1
  simp only at hid
  omega

theorem addressed_of_regs_eq_nil (h : Inv s) (hr : s.regs = []) (hall : ∀ x ∈ s.savedAll, x.2.Perm x.1) :
    Addressed s := by
  refine ⟨?_, ?_, hall⟩
  · intro r hr'
    simp [live, hr] at hr'
  · intro p hp
    rw [h.table, hr] at hp
    cases hp

/-- The step is no call of `AddSave`. -/
def AddsNone (_ : SaveSys) : Ev → Prop
  | .addSave _ => False
  | _ => True

theorem regs_step (h : Inv s) (hc : AddsNone s e) (hs : step s e = some t) : t.regs.length = s.regs.length := by
  cases e with
  | addSave d => exact hc.elim
  | delSave i =>
    obtain rfl := Option.some.inj hs
    exact List.length_map _
  | mergeSave i objs =>
    obtain rfl := Option.some.inj hs
    rfl
  | saveAll order =>
    obtain ⟨-, rfl⟩ := saveAll_eq hs
    rfl
  | tick d =>
    obtain rfl := Option.some.inj hs
    rfl
  | fire n r =>
    obtain ⟨reg, u, -, -, rfl⟩ := fire_eq h hs
    rfl

/-- With nothing registered, `SaveAll` calls nothing. -/
theorem savedAll_step (h : Inv s) (hr : s.regs = []) (hall : ∀ x ∈ s.savedAll, x.2.Perm x.1) (hs : step s e = some t) :
    ∀ x ∈ t.savedAll, x.2.Perm x.1 := by
  cases e with
  | saveAll order =>
    obtain ⟨hp, rfl⟩ := saveAll_eq hs
    intro x hx
    rcases List.mem_append.1 hx with hx | hx
    · exact hall x hx
    · obtain rfl := List.mem_singleton.1 hx
      rw [h.table, hr] at hp
      obtain rfl := List.perm_nil.1 hp
      simp [live, hr, CSaveMgr.saveAll]
  | addSave d =>
    obtain rfl := Option.some.inj hs
    exact hall
  | delSave i =>
    obtain rfl := Option.some.inj hs
    exact hall
  | mergeSave i objs =>
    obtain rfl := Option.some.inj hs
    exact hall
  | tick d =>
    obtain rfl := Option.some.inj hs
    exact hall
  | fire n r =>
    obtain ⟨reg, u, -, -, rfl⟩ := fire_eq h hs
    exact hall

theorem addressed_step (h : Inv s) (ha : Addressed s) (hs : step s e = some t) : Addressed t ↔ AddsNone s e := by
  have hr : s.regs = [] := ha.regs_eq_nil h
  have ht : Inv t := inv_step h hs
  constructor
  · intro hat
    cases e with
    | addSave d =>
      obtain rfl := Option.some.inj hs
      have hnil := hat.regs_eq_nil ht
      simp [addSave] at hnil
    | _ => trivial
  · intro hc
    have hlen := regs_step h hc hs
    rw [hr] at hlen
    exact addressed_of_regs_eq_nil ht (List.length_eq_zero_iff.1 hlen) (savedAll_step h hr ha.saveAll hs)

/-- **The ids that `AddSave` returns** address the registrations in every state of a run iff `AddSave` is not called
in it. -/
theorem addressed_iff (es : List Ev) : Always step Addressed init es ↔ Along step AddsNone init es :=
  always_iff_along_of_inv inv_step addressed_step inv_init
    (addressed_of_regs_eq_nil inv_init rfl fun x hx => by cases hx) es

/-- One registration: `AddSave` returns 1, the object is filed under 2. -/
theorem not_addressed : ¬ Always step Addressed init [.addSave (some 5)] := by
  intro h
  have hkey := (h.2 _ rfl).key ⟨1, CSaveObj.new 2 (some 5) 0, false⟩ (by decide)
  revert hkey
  decide

/-! ## Periodic saving -/

/-- Every registration not deleted has its timeout pending, with a delay of 1 to 20 minutes, and each timeout of one
that was not deleted called its save function. -/
structure Periodic (s : SaveSys) : Prop where
  waits : ∀ n r, s.regs[n]? = some r → r.deleted = false → ∃ u ∈ (s.timers n).pending, u.sKey = "ApplySave" ∧
    TimerSys.Armed (s.timers n) u.reg ∧ u.due ≤ (s.timers n).now + r.obj.iDelay
  delay : ∀ r ∈ s.live, CSaveObj.minute ≤ r.obj.iDelay ∧ r.obj.iDelay ≤ 20 * CSaveObj.minute
  called : ∀ f ∈ s.fired, f.2.1 = true → f.2.2 = true

/-- The step fires no timeout of a registration that is not deleted, and registers nothing for more than 2 minutes. -/
def SavesOn (s : SaveSys) : Ev → Prop
  | .fire n _ => ∀ reg ∈ s.regs[n]?, reg.deleted = true
  | .addSave iDelayMin => iDelayMin.getD 5 ≤ 2
  | _ => True

theorem waiting_waits (x d y : Nat) : ∃ u ∈ (waiting x d y).pending, u.sKey = "ApplySave" ∧
    TimerSys.Armed (waiting x d y) u.reg ∧ u.due ≤ (waiting x d y).now + d :=
  ⟨⟨0, 1, "ApplySave", x + d⟩, List.mem_cons_self, rfl, waiting_armed x d y, by
    show x + d ≤ x + y + d
    omega⟩

/-- The registrations that are not deleted after `AddSave`: those before, and the new one. -/
theorem addSave_live (s : SaveSys) (d : Option Int) : (s.addSave d).live =
    s.live ++ [⟨s.mgr.iDispatchId + 1, CSaveObj.new (s.mgr.iDispatchId + 2) d s.regs.length, false⟩] := by
  simp only [live, addSave, List.filter_append]
  rfl

theorem Periodic.savesOn (h : Inv s) (hs : step s e = some t) (hpt : Periodic t) : SavesOn s e := by
  cases e with
  | fire n r =>
    obtain ⟨reg, u, hreg, hu, rfl⟩ := fire_eq h hs
    intro reg' hreg'
    obtain rfl : reg = reg' := Option.some.inj (hreg.symm.trans hreg')
    by_contra hdel
    -- the timer of the registration has nothing pending any more
    obtain ⟨v, hv, -⟩ := hpt.waits n reg hreg (Bool.eq_false_iff.2 hdel)
    simp only [update_self, hu] at hv
    cases hv
  | addSave d =>
    obtain rfl := Option.some.inj hs
    have hnew : (⟨s.mgr.iDispatchId + 1, CSaveObj.new (s.mgr.iDispatchId + 2) d s.regs.length, false⟩ : Registration) ∈
        (s.addSave d).live := by
      rw [addSave_live]
      exact List.mem_append_right _ (List.mem_singleton_self _)
    exact (CSaveObj.new_delay_iff _ _ _).1 (hpt.delay _ hnew)
  | _ => trivial

theorem Periodic.next (h : Inv s) (hp : Periodic s) (hc : SavesOn s e) (hs : step s e = some t) : Periodic t := by
  cases e with
  | addSave d =>
    obtain rfl := Option.some.inj hs
    refine ⟨?_, ?_, hp.called⟩
    · intro n r hr hdel
      rcases addSave_get hr with hr' | ⟨rfl, rfl⟩
      · have hn : n ≠ s.regs.length := Nat.ne_of_lt (List.getElem?_eq_some_iff.1 hr').1
        simp only [addSave, update_of_ne hn]
        exact hp.waits n r hr' hdel
      · obtain ⟨x, hx⟩ := h.fresh s.regs.length (Nat.le_refl _)
        simp only [addSave, update_self, hx]
        exact waiting_waits x _ 0
    · intro r hr
      rw [addSave_live] at hr
      rcases List.mem_append.1 hr with hr | hr
      · exact hp.delay r hr
      · obtain rfl := List.mem_singleton.1 hr
        exact (CSaveObj.new_delay_iff _ _ _).2 hc
  | delSave i =>
    obtain rfl := Option.some.inj hs
    refine ⟨?_, ?_, hp.called⟩
    · intro n r hr hdel
      simp only [List.getElem?_map, Option.map_eq_some_iff] at hr
      obtain ⟨r', hr', rfl⟩ := hr
      rw [Registration.delSave_obj]
      exact hp.waits n r' hr' (Registration.delSave_deleted hdel)
    · intro r hr
      obtain ⟨hmem, hdel⟩ := List.mem_filter.1 hr
      obtain ⟨r', hr', rfl⟩ := List.mem_map.1 hmem
      have hlive : r' ∈ s.live := by
        refine List.mem_filter.2 ⟨hr', ?_⟩
        rw [Registration.delSave_deleted (by simpa using hdel)]
        rfl
      rw [Registration.delSave_obj]
      exact hp.delay r' hlive
  | mergeSave i objs =>
    obtain rfl := Option.some.inj hs
    exact ⟨hp.waits, hp.delay, hp.called⟩
  | saveAll order =>
    obtain ⟨-, rfl⟩ := saveAll_eq hs
    exact ⟨hp.waits, hp.delay, hp.called⟩
  | tick d =>
    obtain rfl := Option.some.inj hs
    refine ⟨?_, hp.delay, hp.called⟩
    intro n r hr hdel
    obtain ⟨u, hu, hk, ⟨v, hv, hreg, hf⟩, hdue⟩ := hp.waits n r hr hdel
    refine ⟨u, hu, hk, ⟨v, hv, hreg, hf⟩, ?_⟩
    simp only
    omega
  | fire n r =>
    obtain ⟨reg, u, hreg, hu, rfl⟩ := fire_eq h hs
    have hdel := hc reg hreg
    refine ⟨?_, hp.delay, ?_⟩
    · intro k r' hr' hdel'
      have hk : k ≠ n := by
        rintro rfl
        obtain rfl : reg = r' := Option.some.inj (hreg.symm.trans hr')
        rw [hdel] at hdel'
        cases hdel'
      simp only [update_of_ne hk]
      exact hp.waits k r' hr' hdel'
    · intro f hf
      rcases List.mem_append.1 hf with hf | hf
      · exact hp.called f hf
      · obtain rfl := List.mem_singleton.1 hf
        simp [hdel]

theorem periodic_step (h : Inv s) (hp : Periodic s) (hs : step s e = some t) : Periodic t ↔ SavesOn s e :=
  ⟨Periodic.savesOn h hs, fun hc => hp.next h hc hs⟩

/-- **Periodic saving** goes on in every state of a run iff no timeout of a registration that is not deleted fires in
it and no registration is for more than 2 minutes. -/
theorem periodic_iff (es : List Ev) : Always step Periodic init es ↔ Along step SavesOn init es :=
  always_iff_along_of_inv inv_step periodic_step inv_init
    ⟨by simp [init], by simp [init, live], by simp [init]⟩ es

/-- The first timeout of a registration, after 10 minutes for the 1 asked for, calls nothing, and no other follows. -/
theorem not_periodic : ¬ Always step Periodic init [.addSave (some 1), .tick 60000, .fire 0 0] := by
  intro h
  have hlast := ((h.2 _ rfl).2 _ rfl).2 _ rfl
  obtain ⟨u, hu, -⟩ := hlast.waits 0 _ rfl rfl
  cases hu

/-- The registration of a player, for 5 minutes, waits for 50. -/
example : (CSaveObj.new 2 (some 5) 0).iDelay = 50 * CSaveObj.minute := by decide

end SaveSys

end RoundGame.Base
