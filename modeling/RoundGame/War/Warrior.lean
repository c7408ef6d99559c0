import Mathlib.Algebra.Order.BigOperators.Group.List
import Mathlib.Algebra.Ring.Int.Defs
import RoundGame.Lib.Fields
import RoundGame.Lib.Lua
import RoundGame.Lib.StepSys

/-!
# Damage to a warrior

`SubHp` of `warrior.lua` takes hit points off, refreshes the client, runs the hooks `OnSubHp`, and those of `OnDead`
when the warrior is dead then.

It calls `RefreshClientProp` of the global `oWarrior`, which nothing assigns, instead of `self`. So it raises once the
hit points are set, and no hook ever runs (`subHp_eq`). The hooks are accounted for iff there is nothing to run
(`accounted_iff`).
-/

namespace RoundGame.War

open Function Lua StepSys

/-- A call of a function that `AddFunc` filed under `iNo`. -/
structure HookRun where
  sKey : String
  iNo : Int
  func : Nat
  deriving DecidableEq

/-- `CWarrior` with its info and its hooks, and the hooks that have run. -/
structure WarriorObj where
  mInfo : String → Option Int
  mFunc : String → Option (Fields Int Nat)
  ran : List HookRun

namespace WarriorObj

def getInfo (o : WarriorObj) (k : String) (default : Int) : Int := (o.mInfo k).getD default

def setInfo (k : String) (v : Int) (o : WarriorObj) : WarriorObj := { o with mInfo := update o.mInfo k (some v) }

def isAlive (o : WarriorObj) : Bool := 0 < o.getInfo "hp" 0

def isDead (o : WarriorObj) : Bool := o.getInfo "hp" 0 ≤ 0

def addFunc (sKey : String) (iNo : Int) (func : Nat) (o : WarriorObj) : WarriorObj :=
  let mNo :=
    match o.mFunc sKey with
    | none => Fields.empty
    | some mNo => mNo
  { o with mFunc := update o.mFunc sKey (some (mNo.put iNo (some func))) }

def getFunc (o : WarriorObj) (sKey : String) : Option (Fields Int Nat) := o.mFunc sKey

/-- What `ipairs` gives from the number `i` on: it stops at the first one that is missing. -/
def ipairsFrom (t : Fields Int Nat) : Nat → Int → List (Int × Nat)
  | 0, _ => []
  | n + 1, i =>
    match t.get i with
    | some func => (i, func) :: ipairsFrom t n (i + 1)
    | none => []

def ipairs (t : Option (Fields Int Nat)) : Except String (List (Int × Nat)) :=
  match t with
  | some t => .ok (ipairsFrom t t.entries.length 1)
  | none => .error "attempt to index a nil value"

/-- The global `oWarrior`. -/
def oWarrior : LuaM WarriorObj WarriorObj := throw "attempt to index a nil value (global 'oWarrior')"

section Code

variable (raises : HookRun → Bool)

/-- A hook runs, and it may raise. -/
def hook (r : HookRun) : LuaM WarriorObj PUnit := do
  modify fun o => { o with ran := o.ran ++ [r] }
  if raises r then throw "hook"

/-- The loop over `GetFunc(sKey)`. -/
def runHooks (sKey : String) : LuaM WarriorObj PUnit := do
  let lFunc ← LuaM.lift (ipairs ((← get).getFunc sKey))
  lFunc.forM fun e => modify (safeCall (hook raises ⟨sKey, e.1, e.2⟩))

def subHp (iSub : Int) : LuaM WarriorObj PUnit := do
  let iHp := (← get).getInfo "hp" 0
  modify (setInfo "hp" (max 0 (iHp - iSub)))
  let _ ← oWarrior
  runHooks raises "OnSubHp"
  if (← get).isDead then runHooks raises "OnDead"

/-- A warrior that has got its info and its hooks. -/
def start (mInfo : String → Option Int) (adds : List HookRun) : WarriorObj :=
  adds.foldl (fun o a => o.addFunc a.sKey a.iNo a.func) ⟨mInfo, fun _ => none, []⟩

/-- The warrior after a call of `SubHp`, whether it has raised or not. -/
def afterSubHp (o : WarriorObj) (iSub : Int) : WarriorObj := safeCall (subHp raises iSub) o

end Code

/-- The hooks that are registered. -/
def registered (o : WarriorObj) (sKey : String) : List HookRun :=
  ((o.mFunc sKey).map fun t => t.entries.map fun e => ⟨sKey, e.1, e.2⟩).getD []

/-- A call of `SubHp(iSub)` from `o` to `o'` takes the hit points off and runs each hook for damage once, and each one
for death when it is this call that the warrior dies of. -/
structure Accounted (iSub : Int) (o o' : WarriorObj) : Prop where
  hp : o'.getInfo "hp" 0 = max 0 (o.getInfo "hp" 0 - iSub)
  ran : ∃ l, o'.ran = o.ran ++ l ∧
    (l.filter fun r => r.sKey = "OnSubHp").Perm (o.registered "OnSubHp") ∧
    (l.filter fun r => r.sKey = "OnDead").Perm
      (if 0 < o.getInfo "hp" 0 ∧ o'.getInfo "hp" 0 = 0 then o.registered "OnDead" else [])

/-! ## What is registered -/

theorem registered_addFunc (o : WarriorObj) (a : HookRun) (sKey : String) :
    (o.addFunc a.sKey a.iNo a.func).registered sKey = [] ↔ a.sKey ≠ sKey ∧ o.registered sKey = [] := by
  by_cases hkey : sKey = a.sKey
  · subst hkey
    have hput : ∀ t : Fields Int Nat, (t.put a.iNo (some a.func)).entries ≠ [] := by
      intro t hnil
      exact Fields.entries_eq_nil.1 hnil a.iNo (Fields.mem_keys_put a.func |>.2 (Or.inl rfl))
    simp [registered, addFunc, hput]
  · simp [registered, addFunc, hkey, Ne.symm hkey]

theorem registered_start (mInfo : String → Option Int) (adds : List HookRun) (sKey : String) :
    (start mInfo adds).registered sKey = [] ↔ ∀ a ∈ adds, a.sKey ≠ sKey := by
  have hfold : ∀ o : WarriorObj, (adds.foldl (fun o a => o.addFunc a.sKey a.iNo a.func) o).registered sKey = [] ↔
      o.registered sKey = [] ∧ ∀ a ∈ adds, a.sKey ≠ sKey := by
    induction adds with
    | nil => simp
    | cons a adds ih =>
      intro o
      rw [List.foldl_cons, ih, registered_addFunc, List.forall_mem_cons, and_assoc, and_left_comm]
  rw [start, hfold]
  exact and_iff_right rfl

theorem mInfo_start (mInfo : String → Option Int) (adds : List HookRun) : (start mInfo adds).mInfo = mInfo := by
  have hfold : ∀ o : WarriorObj, (adds.foldl (fun o a => o.addFunc a.sKey a.iNo a.func) o).mInfo = o.mInfo := by
    induction adds with
    | nil => exact fun _ => rfl
    | cons a adds ih => exact fun o => ih _
  exact hfold _

/-! ## What a call does -/

section Calls

variable (raises : HookRun → Bool)

/-- `SubHp` sets the hit points and raises. -/
theorem subHp_eq (iSub : Int) (o : WarriorObj) :
    (subHp raises iSub).exec o = (.error "attempt to index a nil value (global 'oWarrior')",
      o.setInfo "hp" (max 0 (o.getInfo "hp" 0 - iSub))) := by
  unfold subHp
  rw [LuaM.exec_bind, LuaM.exec_get]
  simp only
  rw [LuaM.exec_bind, LuaM.exec_modify]
  rfl

theorem afterSubHp_eq (iSub : Int) (o : WarriorObj) :
    o.afterSubHp raises iSub = o.setInfo "hp" (max 0 (o.getInfo "hp" 0 - iSub)) := by
  rw [afterSubHp, safeCall, subHp_eq]

theorem getInfo_setInfo (o : WarriorObj) (k : String) (v default : Int) : (o.setInfo k v).getInfo k default = v := by
  simp [getInfo, setInfo]

theorem accounted_afterSubHp_iff (iSub : Int) (o : WarriorObj) : Accounted iSub o (o.afterSubHp raises iSub) ↔
    o.registered "OnSubHp" = [] ∧
      (0 < o.getInfo "hp" 0 → o.getInfo "hp" 0 ≤ iSub → o.registered "OnDead" = []) := by
  have hhp : (o.afterSubHp raises iSub).getInfo "hp" 0 = max 0 (o.getInfo "hp" 0 - iSub) := by
    rw [afterSubHp_eq, getInfo_setInfo]
  have hdead : (o.afterSubHp raises iSub).getInfo "hp" 0 = 0 ↔ o.getInfo "hp" 0 ≤ iSub := by
    rw [hhp]
    omega
  have hran : (o.afterSubHp raises iSub).ran = o.ran := by
    rw [afterSubHp_eq]
    rfl
  constructor
  · rintro ⟨-, l, hl, hsub, hdie⟩
    rw [hran, List.self_eq_append_right] at hl
    subst hl
    refine ⟨(List.perm_nil.1 hsub.symm), fun hpos hle => ?_⟩
    rw [if_pos ⟨hpos, hdead.2 hle⟩] at hdie
    exact List.perm_nil.1 hdie.symm
  · rintro ⟨hsub, hdie⟩
    refine ⟨hhp, [], by rw [hran, List.append_nil], by rw [hsub]; exact List.Perm.refl _, ?_⟩
    split
    · rename_i h
      rw [hdie h.1 (hdead.1 h.2)]
      exact List.Perm.refl _
    · exact List.Perm.refl _

/-! ## Calls in sequence -/

/-- The calls of `SubHp`, one after the other. -/
def hits (o : WarriorObj) (iSub : Int) : Option WarriorObj := some (o.afterSubHp raises iSub)

/-- Every call is accounted for. -/
def AllAccounted (o : WarriorObj) (subs : List Int) : Prop :=
  Along (hits raises) (fun o iSub => Accounted iSub o (o.afterSubHp raises iSub)) o subs

variable {raises} {o : WarriorObj} {iSub : Int} {subs : List Int}

theorem allAccounted_cons : AllAccounted raises o (iSub :: subs) ↔
    Accounted iSub o (o.afterSubHp raises iSub) ∧ AllAccounted raises (o.afterSubHp raises iSub) subs := by
  simp only [AllAccounted, Along, hits, Option.mem_def, Option.some.injEq, forall_eq']

theorem registered_afterSubHp (o : WarriorObj) (iSub : Int) (sKey : String) :
    (o.afterSubHp raises iSub).registered sKey = o.registered sKey := by
  rw [afterSubHp_eq]
  rfl

theorem hp_afterSubHp (raises : HookRun → Bool) (o : WarriorObj) (iSub : Int) :
    (o.afterSubHp raises iSub).getInfo "hp" 0 = max 0 (o.getInfo "hp" 0 - iSub) := by
  rw [afterSubHp_eq, getInfo_setInfo]

/-- The hits that a dead warrior takes. -/
theorem allAccounted_of_dead (h : o.getInfo "hp" 0 = 0) (hsubs : ∀ i ∈ subs, 0 ≤ i) :
    AllAccounted raises o subs ↔ subs = [] ∨ o.registered "OnSubHp" = [] := by
  induction subs generalizing o with
  | nil => exact iff_of_true trivial (Or.inl rfl)
  | cons iSub subs ih =>
    rw [List.forall_mem_cons] at hsubs
    have hdead : (o.afterSubHp raises iSub).getInfo "hp" 0 = 0 := by
      rw [hp_afterSubHp]
      omega
    rw [allAccounted_cons, accounted_afterSubHp_iff, ih hdead hsubs.2, registered_afterSubHp]
    have hpos : ¬ 0 < o.getInfo "hp" 0 := by omega
    simp only [hpos, false_imp_iff, and_true, List.cons_ne_nil, false_or]
    tauto

/-- The hits that a living warrior takes. -/
theorem allAccounted_of_alive (h : 0 < o.getInfo "hp" 0) (hsubs : ∀ i ∈ subs, 0 ≤ i) :
    AllAccounted raises o subs ↔ subs = [] ∨
      (o.registered "OnSubHp" = [] ∧ (o.registered "OnDead" = [] ∨ subs.sum < o.getInfo "hp" 0)) := by
  induction subs generalizing o with
  | nil => exact iff_of_true trivial (Or.inl rfl)
  | cons iSub subs ih =>
    rw [List.forall_mem_cons] at hsubs
    have hsum : 0 ≤ subs.sum := List.sum_nonneg hsubs.2
    have hp := hp_afterSubHp raises o iSub
    rw [allAccounted_cons, accounted_afterSubHp_iff, List.sum_cons]
    rcases Int.lt_or_le iSub (o.getInfo "hp" 0) with hlt | hle
    · -- it survives this one
      have hpos : 0 < (o.afterSubHp raises iSub).getInfo "hp" 0 := by omega
      have hleft : subs.sum < max 0 (o.getInfo "hp" 0 - iSub) ↔ iSub + subs.sum < o.getInfo "hp" 0 := by omega
      have hnot : ¬ o.getInfo "hp" 0 ≤ iSub := by omega
      have hnil : subs = [] → iSub + subs.sum < o.getInfo "hp" 0 := by
        rintro rfl
        simpa using hlt
      rw [ih hpos hsubs.2, registered_afterSubHp, registered_afterSubHp, hp, hleft]
      simp only [hnot, false_imp_iff, implies_true, and_true, List.cons_ne_nil, false_or]
      tauto
    · have hdead : (o.afterSubHp raises iSub).getInfo "hp" 0 = 0 := by omega
      have hnot : ¬ iSub + subs.sum < o.getInfo "hp" 0 := by omega
      rw [allAccounted_of_dead hdead hsubs.2, registered_afterSubHp]
      simp only [h, hle, hnot, true_imp_iff, List.cons_ne_nil, false_or, or_false]
      tauto

end Calls

/-- **Damage and the hooks.** The calls of `SubHp` are accounted for iff there is none, or there is no hook for damage
and either no hook for death or no death. -/
theorem accounted_iff (raises : HookRun → Bool) (mInfo : String → Option Int) (adds : List HookRun) (subs : List Int)
    (hp : 0 < (mInfo "hp").getD 0) (hsubs : ∀ i ∈ subs, 0 ≤ i) :
    AllAccounted raises (start mInfo adds) subs ↔ subs = [] ∨
      ((∀ a ∈ adds, a.sKey ≠ "OnSubHp") ∧ ((∀ a ∈ adds, a.sKey ≠ "OnDead") ∨ subs.sum < (mInfo "hp").getD 0)) := by
  have hinfo : (start mInfo adds).getInfo "hp" 0 = (mInfo "hp").getD 0 := by rw [getInfo, mInfo_start]
  rw [← registered_start mInfo adds "OnSubHp", ← registered_start mInfo adds "OnDead", ← hinfo]
  exact allAccounted_of_alive (hinfo ▸ hp) hsubs

/-- A warrior with ten hit points takes two hits. -/
theorem accounted_iff_two :
    AllAccounted (fun _ => false) (start (fun _ => some 10) [⟨"OnDead", 1, 7⟩]) [3, 4] ↔
      ([3, 4] : List Int) = [] ∨
      ((∀ a ∈ [HookRun.mk "OnDead" 1 7], a.sKey ≠ "OnSubHp") ∧
        ((∀ a ∈ [HookRun.mk "OnDead" 1 7], a.sKey ≠ "OnDead") ∨
          ([3, 4] : List Int).sum < (some 10 : Option Int).getD 0)) :=
  accounted_iff (fun _ => false) (fun _ => some 10) [⟨"OnDead", 1, 7⟩] [3, 4] (by decide) (by decide)

/-- A warrior with ten hit points and a hook for damage takes one hit. -/
theorem not_accounted : ¬ ∀ (raises : HookRun → Bool) (mInfo : String → Option Int) (adds : List HookRun)
    (subs : List Int), 0 < (mInfo "hp").getD 0 → (∀ i ∈ subs, 0 ≤ i) → AllAccounted raises (start mInfo adds) subs := by
  intro h
  have hall := h (fun _ => false) (fun _ => some 10) [⟨"OnSubHp", 1, 7⟩] [3] (by decide) (by decide)
  have hone := ((accounted_afterSubHp_iff _ _ _).1 (allAccounted_cons.1 hall).1).1
  exact (registered_start _ _ _).1 hone ⟨"OnSubHp", 1, 7⟩ List.mem_cons_self rfl

end WarriorObj

end RoundGame.War
