import Mathlib.Data.Finset.Basic
import Mathlib.Data.List.Range
import RoundGame.Lib.Lua
import RoundGame.Lib.PMap
import RoundGame.Lib.StepSys
import RoundGame.War.CWar

/-!
# Positions in a camp

`CCamp` gives the warriors of one side their positions. Players and npcs take the first free one. A summon stands five
positions behind its player, whether that position is free or not, and whether there is one or not.

The positions are exclusive in every state of a run iff every warrior that is added is not yet in the camp, every
summon finds its position free and within the camp, and a warrior that leaves is in the camp, or the position it had
is empty (`exclusive_iff`).
-/

namespace RoundGame.War

open Function Lua

/-! ## `CCamp` -/

structure CCamp where
  iCamp : Nat
  mPos2Wid : Nat → Option Wid := fun _ => none
  iStartPos : Nat := 1
  iMaxPos : Nat := 15

namespace CCamp

/-- The first position without a warrior. -/
def freePos (c : CCamp) : Option Nat :=
  (List.range' c.iStartPos (c.iMaxPos + 1 - c.iStartPos)).find? fun iPos => (c.mPos2Wid iPos).isNone

def dispatchPos (c : CCamp) (iWid : Wid) : Option Nat × CCamp :=
  match c.freePos with
  | some iPos => (some iPos, { c with mPos2Wid := update c.mPos2Wid iPos (some iWid) })
  | none => (none, c)

def dispatchSummonPos (iPos : Nat) : Nat := iPos + 5

end CCamp

/-- A camp, and what the warriors know of it. `inCamp` are the warriors that were given a position and have not left
since. -/
structure CampSys where
  oCamp : CCamp
  iPos : Wid → Option Nat
  iCamp : Wid → Option Nat
  inCamp : Finset Wid

namespace CampSys

/-- `SetPos` and `SetCamp`. -/
def setPlace (iWid : Wid) (iPos iCamp : Option Nat) (s : CampSys) : CampSys :=
  { s with iPos := update s.iPos iWid iPos, iCamp := update s.iCamp iWid iCamp }

/-- The common part of `AddPlayer` and `AddWarrior`. -/
def addFirstFree (iWid : Wid) (iCamp : Option Nat) (s : CampSys) : CampSys :=
  let r := s.oCamp.dispatchPos iWid
  setPlace iWid r.1 iCamp
    { s with oCamp := r.2, inCamp := if r.1.isSome then insert iWid s.inCamp else s.inCamp }

/-- `AddPlayer`; the `iCamp` that it sets is a global variable that is nowhere assigned. -/
def addPlayer (iWid : Wid) (s : CampSys) : CampSys := s.addFirstFree iWid none

def addWarrior (iWid : Wid) (s : CampSys) : CampSys := s.addFirstFree iWid (some s.oCamp.iCamp)

def addSummon (iPlayer iSummon : Wid) : LuaM CampSys Unit := do
  match (← get).iPos iPlayer with
  | none => throw "attempt to perform arithmetic on a nil value (local 'iPos')"
  | some iPlayerPos =>
    let iPos := CCamp.dispatchSummonPos iPlayerPos
    modify fun s =>
      setPlace iSummon (some iPos) none
        { s with
          oCamp := { s.oCamp with mPos2Wid := update s.oCamp.mPos2Wid iPos (some iSummon) }
          inCamp := insert iSummon s.inCamp }

def leaveWarrior (iWid : Wid) : LuaM CampSys Unit := do
  match (← get).iPos iWid with
  | none => throw "index is nil"
  | some iPos =>
    modify fun s =>
      { s with
        oCamp := { s.oCamp with mPos2Wid := update s.oCamp.mPos2Wid iPos none }
        inCamp := s.inCamp.erase iWid }

end CampSys

/-! ## Runs -/

inductive CampOp
  | addPlayer (iWid : Wid)
  | addSummon (iPlayer iSummon : Wid)
  | addWarrior (iWid : Wid)
  | leaveWarrior (iWid : Wid)

namespace CampSys

/-- A new camp, with warriors that have no position. -/
def new (iCamp : Nat) : CampSys where
  oCamp := { iCamp := iCamp }
  iPos _ := none
  iCamp _ := none
  inCamp := ∅

/-- The state after a call, whether it raised or not. A summon is added for a player that is in the camp. -/
def step (s : CampSys) : CampOp → Option CampSys
  | .addPlayer iWid => some (s.addPlayer iWid)
  | .addSummon iPlayer iSummon => if iPlayer ∈ s.inCamp then some (safeCall (addSummon iPlayer iSummon) s) else none
  | .addWarrior iWid => some (s.addWarrior iWid)
  | .leaveWarrior iWid => some (safeCall (leaveWarrior iWid) s)

/-- Every warrior in the camp has a position of its own, and the table says which. -/
structure Exclusive (s : CampSys) : Prop where
  placed : ∀ iWid ∈ s.inCamp, ∃ iPos, s.iPos iWid = some iPos ∧ s.oCamp.iStartPos ≤ iPos ∧ iPos ≤ s.oCamp.iMaxPos
  distinct : ∀ iWid ∈ s.inCamp, ∀ iWid' ∈ s.inCamp, s.iPos iWid = s.iPos iWid' → iWid = iWid'
  table : ∀ iPos iWid, s.oCamp.mPos2Wid iPos = some iWid ↔ iWid ∈ s.inCamp ∧ s.iPos iWid = some iPos

/-- The call adds a warrior and finds no free position for it. -/
def NoFree (s : CampSys) : CampOp → Prop
  | .addPlayer _ => s.oCamp.freePos = none
  | .addSummon iPlayer _ => ∀ iPos, s.iPos iPlayer = some iPos →
      s.oCamp.iMaxPos < CCamp.dispatchSummonPos iPos ∨ (s.oCamp.mPos2Wid (CCamp.dispatchSummonPos iPos)).isSome
  | .addWarrior _ => s.oCamp.freePos = none
  | .leaveWarrior _ => False

/-- What should hold after a call. -/
def Right (s : CampSys) (op : CampOp) : Prop :=
  ∀ t ∈ step s op, t.Exclusive ∧ (s.NoFree op → t.oCamp = s.oCamp ∧ t.inCamp = s.inCamp)

/-- A warrior that is added is not yet in the camp, a summon finds its position within the camp and empty, or has it
already, and the position of a warrior that leaves is its own or empty. -/
def Fits (s : CampSys) : CampOp → Prop
  | .addPlayer iWid => iWid ∉ s.inCamp
  | .addSummon iPlayer iSummon => ∃ iPos ∈ s.iPos iPlayer,
      CCamp.dispatchSummonPos iPos ≤ s.oCamp.iMaxPos ∧
      (s.oCamp.mPos2Wid (CCamp.dispatchSummonPos iPos) = none ∧ iSummon ∉ s.inCamp ∨
        s.oCamp.mPos2Wid (CCamp.dispatchSummonPos iPos) = some iSummon)
  | .addWarrior iWid => iWid ∉ s.inCamp
  | .leaveWarrior iWid => iWid ∈ s.inCamp ∨ ∀ iPos ∈ s.iPos iWid, s.oCamp.mPos2Wid iPos = none

instance (s : CampSys) : ∀ op, Decidable (s.Fits op)
  | .addPlayer iWid => inferInstanceAs (Decidable (iWid ∉ s.inCamp))
  | .addSummon iPlayer iSummon => inferInstanceAs (Decidable (∃ iPos ∈ s.iPos iPlayer,
      CCamp.dispatchSummonPos iPos ≤ s.oCamp.iMaxPos ∧
      (s.oCamp.mPos2Wid (CCamp.dispatchSummonPos iPos) = none ∧ iSummon ∉ s.inCamp ∨
        s.oCamp.mPos2Wid (CCamp.dispatchSummonPos iPos) = some iSummon)))
  | .addWarrior iWid => inferInstanceAs (Decidable (iWid ∉ s.inCamp))
  | .leaveWarrior iWid =>
    inferInstanceAs (Decidable (iWid ∈ s.inCamp ∨ ∀ iPos ∈ s.iPos iWid, s.oCamp.mPos2Wid iPos = none))

theorem exclusive_of_table {s : CampSys}
    (hplaced : ∀ iWid ∈ s.inCamp, ∃ iPos, s.iPos iWid = some iPos ∧ s.oCamp.iStartPos ≤ iPos ∧ iPos ≤ s.oCamp.iMaxPos)
    (htable : ∀ iPos iWid, s.oCamp.mPos2Wid iPos = some iWid ↔ iWid ∈ s.inCamp ∧ s.iPos iWid = some iPos) :
    s.Exclusive := by
  refine ⟨hplaced, ?_, htable⟩
  intro iWid hmem iWid' hmem' heq
  obtain ⟨iPos, hpos, -⟩ := hplaced iWid hmem
  have h : s.oCamp.mPos2Wid iPos = some iWid := (htable iPos iWid).2 ⟨hmem, hpos⟩
  have h' : s.oCamp.mPos2Wid iPos = some iWid' := (htable iPos iWid').2 ⟨hmem', heq ▸ hpos⟩
  exact Option.some.inj (h.symm.trans h')

/-- A warrior is given a position. -/
def place (iWid : Wid) (iPos : Nat) (iCamp : Option Nat) (s : CampSys) : CampSys :=
  setPlace iWid (some iPos) iCamp
    { s with
      oCamp := { s.oCamp with mPos2Wid := update s.oCamp.mPos2Wid iPos (some iWid) }
      inCamp := insert iWid s.inCamp }

/-- A warrior leaves a position. -/
def vacate (iWid : Wid) (iPos : Nat) (s : CampSys) : CampSys :=
  { s with
    oCamp := { s.oCamp with mPos2Wid := update s.oCamp.mPos2Wid iPos none }
    inCamp := s.inCamp.erase iWid }

section Place

variable {s : CampSys} (h : s.Exclusive) (iWid : Wid) (iPos : Nat) (iCamp : Option Nat)

include h

theorem Exclusive.place_new (hrange : s.oCamp.iStartPos ≤ iPos ∧ iPos ≤ s.oCamp.iMaxPos)
    (hfree : s.oCamp.mPos2Wid iPos = none) (hnew : iWid ∉ s.inCamp) : (place iWid iPos iCamp s).Exclusive := by
  apply exclusive_of_table
  · intro iWid' hmem
    rcases Finset.mem_insert.1 hmem with rfl | hold
    · exact ⟨iPos, update_self _ _ _, hrange⟩
    · obtain ⟨iPos', hpos, hr⟩ := h.placed iWid' hold
      have hne : iWid' ≠ iWid := fun he => hnew (he ▸ hold)
      exact ⟨iPos', (update_of_ne hne _ _).trans hpos, hr⟩
  · intro iPos' iWid'
    show update s.oCamp.mPos2Wid iPos (some iWid) iPos' = some iWid' ↔
      iWid' ∈ insert iWid s.inCamp ∧ update s.iPos iWid (some iPos) iWid' = some iPos'
    rw [PMap.update_some_eq_some, PMap.update_some_eq_some, Finset.mem_insert, h.table]
    have hother : iWid' ∈ s.inCamp → s.iPos iWid' = some iPos' → iPos' ≠ iPos := by
      rintro hmem hpos rfl
      have hsome := (h.table iPos' iWid').2 ⟨hmem, hpos⟩
      rw [hfree] at hsome
      cases hsome
    grind

/-- A warrior can be given a position iff the position is in the camp and empty, and the warrior is not in the camp, or
the position is its own already. -/
theorem exclusive_place : (place iWid iPos iCamp s).Exclusive ↔
    (s.oCamp.iStartPos ≤ iPos ∧ iPos ≤ s.oCamp.iMaxPos) ∧
      (s.oCamp.mPos2Wid iPos = none ∧ iWid ∉ s.inCamp ∨ s.oCamp.mPos2Wid iPos = some iWid) := by
  have hpos : (place iWid iPos iCamp s).iPos iWid = some iPos := update_self _ _ _
  have hself : (place iWid iPos iCamp s).oCamp.mPos2Wid iPos = some iWid := update_self _ _ _
  constructor
  · intro ht
    obtain ⟨iPos', hp, hrange⟩ := ht.placed iWid (Finset.mem_insert_self _ _)
    rw [hpos] at hp
    cases hp
    refine ⟨hrange, ?_⟩
    cases hold : s.oCamp.mPos2Wid iPos with
    | none =>
      refine Or.inl ⟨rfl, fun hmem => ?_⟩
      -- the entry of the position that the warrior had before is still there
      obtain ⟨iPos', hp, -⟩ := h.placed iWid hmem
      have hentry : s.oCamp.mPos2Wid iPos' = some iWid := (h.table _ _).2 ⟨hmem, hp⟩
      have hne : iPos' ≠ iPos := by
        rintro rfl
        rw [hold] at hentry
        cases hentry
      have hkept : (place iWid iPos iCamp s).oCamp.mPos2Wid iPos' = some iWid :=
        (update_of_ne hne _ _).trans hentry
      have hp' := ((ht.table _ _).1 hkept).2
      rw [hpos] at hp'
      exact hne (Option.some.inj hp').symm
    | some iWid' =>
      by_cases hw : iWid' = iWid
      · exact Or.inr (by rw [hw])
      · -- the warrior that was there has lost its entry
        obtain ⟨hmem, hp⟩ := (h.table _ _).1 hold
        have hp' : (place iWid iPos iCamp s).iPos iWid' = some iPos := (update_of_ne hw _ _).trans hp
        have hentry := (ht.table iPos iWid').2 ⟨Finset.mem_insert_of_mem hmem, hp'⟩
        rw [hself] at hentry
        exact absurd (Option.some.inj hentry).symm hw
  · rintro ⟨hrange, ⟨hfree, hnew⟩ | hown⟩
    · exact h.place_new iWid iPos iCamp hrange hfree hnew
    · -- nothing changes
      obtain ⟨hmem, hp⟩ := (h.table _ _).1 hown
      have hmap : update s.oCamp.mPos2Wid iPos (some iWid) = s.oCamp.mPos2Wid := by rw [← hown, update_eq_self]
      have hposmap : update s.iPos iWid (some iPos) = s.iPos := by rw [← hp, update_eq_self]
      have hin : insert iWid s.inCamp = s.inCamp := Finset.insert_eq_self.2 hmem
      unfold place setPlace
      simp only [hmap, hposmap, hin]
      exact ⟨h.placed, h.distinct, h.table⟩

/-- A warrior loses its position. -/
theorem exclusive_unplace : (setPlace iWid none iCamp s).Exclusive ↔ iWid ∉ s.inCamp := by
  have hpos : (setPlace iWid none iCamp s).iPos iWid = none := update_self _ _ _
  constructor
  · intro ht hmem
    obtain ⟨iPos, hp, -⟩ := ht.placed iWid hmem
    rw [hpos] at hp
    cases hp
  · intro hnew
    have hkept : ∀ iWid' ∈ s.inCamp, (setPlace iWid none iCamp s).iPos iWid' = s.iPos iWid' := by
      intro iWid' hmem
      have hne : iWid' ≠ iWid := fun he => hnew (he ▸ hmem)
      exact update_of_ne hne _ _
    apply exclusive_of_table
    · intro iWid' hmem
      rw [hkept iWid' hmem]
      exact h.placed iWid' hmem
    · intro iPos iWid'
      refine (h.table iPos iWid').trans (and_congr_right fun hmem => ?_)
      rw [hkept iWid' hmem]

/-- A warrior that has the position leaves. -/
theorem exclusive_vacate (hpos : s.iPos iWid = some iPos) :
    (vacate iWid iPos s).Exclusive ↔ iWid ∈ s.inCamp ∨ s.oCamp.mPos2Wid iPos = none := by
  have hgone : (vacate iWid iPos s).oCamp.mPos2Wid iPos = none := update_self _ _ _
  constructor
  · intro ht
    cases hold : s.oCamp.mPos2Wid iPos with
    | none => exact Or.inr rfl
    | some iWid' =>
      obtain ⟨hmem, hp⟩ := (h.table _ _).1 hold
      by_cases hw : iWid' = iWid
      · exact Or.inl (hw ▸ hmem)
      · -- the entry of another warrior is gone
        have hentry := (ht.table iPos iWid').2 ⟨Finset.mem_erase.2 ⟨hw, hmem⟩, hp⟩
        rw [hgone] at hentry
        cases hentry
  · intro hcase
    have hown : ∀ iWid', s.oCamp.mPos2Wid iPos = some iWid' → iWid' = iWid := by
      intro iWid' hentry
      rcases hcase with hmem | hnone
      · exact Option.some.inj (hentry.symm.trans ((h.table _ _).2 ⟨hmem, hpos⟩))
      · rw [hnone] at hentry
        cases hentry
    apply exclusive_of_table
    · intro iWid' hmem
      exact h.placed iWid' (Finset.mem_of_mem_erase hmem)
    · intro iPos' iWid'
      show update s.oCamp.mPos2Wid iPos none iPos' = some iWid' ↔
        iWid' ∈ s.inCamp.erase iWid ∧ s.iPos iWid' = some iPos'
      rw [PMap.update_none_eq_some, Finset.mem_erase, h.table]
      constructor
      · rintro ⟨hne, hmem, hp⟩
        refine ⟨⟨?_, hmem⟩, hp⟩
        rintro rfl
        exact hne (Option.some.inj (hp.symm.trans hpos))
      · rintro ⟨⟨hne, hmem⟩, hp⟩
        refine ⟨?_, hmem, hp⟩
        rintro rfl
        exact hne (hown iWid' ((h.table _ _).2 ⟨hmem, hp⟩))

end Place

/-! ## The calls -/

theorem freePos_some {c : CCamp} {iPos : Nat} (h : c.freePos = some iPos) :
    (c.iStartPos ≤ iPos ∧ iPos ≤ c.iMaxPos) ∧ c.mPos2Wid iPos = none := by
  have hmem := List.mem_of_find?_eq_some h
  rw [List.mem_range'_1] at hmem
  have hnone : (c.mPos2Wid iPos).isNone = true := List.find?_some (p := fun iPos => (c.mPos2Wid iPos).isNone) h
  exact ⟨⟨hmem.1, by omega⟩, Option.isNone_iff_eq_none.1 hnone⟩

theorem addFirstFree_some {s : CampSys} {iPos : Nat} (h : s.oCamp.freePos = some iPos) (iWid : Wid)
    (iCamp : Option Nat) : s.addFirstFree iWid iCamp = place iWid iPos iCamp s := by
  unfold addFirstFree CCamp.dispatchPos
  rw [h]
  rfl

theorem addFirstFree_none {s : CampSys} (h : s.oCamp.freePos = none) (iWid : Wid) (iCamp : Option Nat) :
    s.addFirstFree iWid iCamp = setPlace iWid none iCamp s := by
  unfold addFirstFree CCamp.dispatchPos
  rw [h]
  rfl

theorem addSummon_some {s : CampSys} {iPlayer : Wid} {iPos : Nat} (h : s.iPos iPlayer = some iPos) (iSummon : Wid) :
    safeCall (addSummon iPlayer iSummon) s = place iSummon (CCamp.dispatchSummonPos iPos) none s := by
  unfold addSummon safeCall
  rw [LuaM.exec_bind, LuaM.exec_get]
  dsimp only
  rw [h]
  rfl

theorem leaveWarrior_none {s : CampSys} {iWid : Wid} (h : s.iPos iWid = none) :
    safeCall (leaveWarrior iWid) s = s := by
  unfold leaveWarrior safeCall
  rw [LuaM.exec_bind, LuaM.exec_get]
  dsimp only
  rw [h]
  rfl

theorem leaveWarrior_some {s : CampSys} {iWid : Wid} {iPos : Nat} (h : s.iPos iWid = some iPos) :
    safeCall (leaveWarrior iWid) s = vacate iWid iPos s := by
  unfold leaveWarrior safeCall
  rw [LuaM.exec_bind, LuaM.exec_get]
  dsimp only
  rw [h]
  rfl

theorem step_addSummon {s t : CampSys} {iPlayer iSummon : Wid} : step s (.addSummon iPlayer iSummon) = some t ↔
    iPlayer ∈ s.inCamp ∧ t = safeCall (addSummon iPlayer iSummon) s := by
  show (if _ then _ else _) = _ ↔ _
  split
  case isTrue hmem => simp [hmem, eq_comm]
  case isFalse hmem => simp [hmem]

section Step

variable {s : CampSys} (h : s.Exclusive)

include h

theorem exclusive_addFirstFree (iWid : Wid) (iCamp : Option Nat) :
    (s.addFirstFree iWid iCamp).Exclusive ↔ iWid ∉ s.inCamp := by
  cases hfree : s.oCamp.freePos with
  | none => rw [addFirstFree_none hfree, exclusive_unplace h]
  | some iPos =>
    obtain ⟨hrange, hnone⟩ := freePos_some hfree
    rw [addFirstFree_some hfree, exclusive_place h]
    simp [hrange, hnone]

/-- Under the invariant, a call keeps the positions exclusive iff it fits. -/
theorem exclusive_step {op : CampOp} {t : CampSys} (ht : step s op = some t) : t.Exclusive ↔ s.Fits op := by
  cases op with
  | addPlayer iWid => cases ht; exact exclusive_addFirstFree h iWid none
  | addWarrior iWid => cases ht; exact exclusive_addFirstFree h iWid _
  | addSummon iPlayer iSummon =>
    obtain ⟨hmem, rfl⟩ := step_addSummon.1 ht
    obtain ⟨iPos, hpos, hlo, -⟩ := h.placed iPlayer hmem
    have hstart : s.oCamp.iStartPos ≤ CCamp.dispatchSummonPos iPos := Nat.le_add_right_of_le hlo
    rw [addSummon_some hpos, exclusive_place h]
    simp [Fits, hpos, hstart]
  | leaveWarrior iWid =>
    cases ht
    cases hpos : s.iPos iWid with
    | none =>
      rw [leaveWarrior_none hpos]
      exact iff_of_true h (Or.inr fun iPos hp => by rw [hpos] at hp; cases hp)
    | some iPos =>
      rw [leaveWarrior_some hpos, exclusive_vacate h iWid iPos hpos]
      simp [Fits, hpos]

/-- A call that fits and finds no free position leaves the camp as it was. -/
theorem noFree_step {op : CampOp} {t : CampSys} (ht : step s op = some t) (hfit : s.Fits op) (hno : s.NoFree op) :
    t.oCamp = s.oCamp ∧ t.inCamp = s.inCamp := by
  cases op with
  | addPlayer iWid =>
    cases ht
    rw [addPlayer, addFirstFree_none hno]
    exact ⟨rfl, rfl⟩
  | addWarrior iWid =>
    cases ht
    rw [addWarrior, addFirstFree_none hno]
    exact ⟨rfl, rfl⟩
  | addSummon iPlayer iSummon =>
    obtain ⟨hmem, rfl⟩ := step_addSummon.1 ht
    obtain ⟨iPos, hpos, hmax, ⟨hfree, -⟩ | hown⟩ := hfit
    · rcases hno iPos hpos with hlt | hsome
      · exact absurd hmax (Nat.not_le_of_lt hlt)
      · rw [hfree] at hsome
        cases hsome
    · -- the summon has the position already
      rw [addSummon_some hpos]
      have hin : iSummon ∈ s.inCamp := ((h.table _ _).1 hown).1
      refine ⟨?_, Finset.insert_eq_self.2 hin⟩
      unfold place setPlace
      simp only [← hown, update_eq_self]
  | leaveWarrior iWid => exact hno.elim

theorem right_iff {op : CampOp} {t : CampSys} (ht : step s op = some t) : s.Right op ↔ s.Fits op := by
  constructor
  · exact fun hright => (exclusive_step h ht).1 (hright t ht).1
  · exact fun hfit t ht => ⟨(exclusive_step h ht).2 hfit, noFree_step h ht hfit⟩

end Step

theorem exclusive_new (iCamp : Nat) : (new iCamp).Exclusive where
  placed := fun _ hmem => absurd hmem (Finset.notMem_empty _)
  distinct := fun _ hmem => absurd hmem (Finset.notMem_empty _)
  table := fun _ _ => iff_of_false (fun h => nomatch h) fun h => absurd h.1 (Finset.notMem_empty _)

theorem along_right_iff {s : CampSys} (h : s.Exclusive) (ops : List CampOp) :
    StepSys.Along step Right s ops ↔ StepSys.Along step Fits s ops := by
  refine StepSys.along_congr_of_inv (I := Exclusive) ?_ ?_ h ops
  · intro s op t _ hright ht
    exact (hright t ht).1
  · intro s op t hs ht
    exact right_iff hs ht

/-- From an empty camp, every call of a run leaves the positions exclusive, and the camp as it was when it finds no
free position, iff every call fits. -/
theorem exclusive_iff (iCamp : Nat) (ops : List CampOp) :
    StepSys.Along step Right (new iCamp) ops ↔ StepSys.Along step Fits (new iCamp) ops :=
  along_right_iff (exclusive_new iCamp) ops

/-- Six players with their summons. -/
def sixPlayers : List CampOp :=
  [.addPlayer 1, .addSummon 1 2, .addPlayer 3, .addSummon 3 4, .addPlayer 5, .addSummon 5 6, .addPlayer 7,
    .addSummon 7 8, .addPlayer 9, .addSummon 9 10, .addPlayer 11, .addSummon 11 12]

/-- The sixth player stands at position 11, and its summon would stand at 16. -/
theorem not_exclusive : ¬ StepSys.Along step Right (new 1) sixPlayers := by
  rw [along_right_iff (exclusive_new 1)]
  decide

end CampSys

end RoundGame.War
