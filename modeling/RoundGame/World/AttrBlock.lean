import Mathlib.Algebra.BigOperators.Ring.Finset
import Mathlib.Data.BitVec
import Mathlib.Data.Finset.Dedup
import Mathlib.Data.List.TakeWhile
import RoundGame.Lib.Accum
import RoundGame.Lib.Lua

/-!
# Attribute blocks

`attrblock.lua`: for each attribute, what every source adds to it and to its ratio. The amounts are integers of Lua, so
all sums wrap around at 64 bits.

- `CAttrBlock` and its operations; a table that was never added to is `nil`, which `GetApply` and `DelApply` read as an
  empty one and `GetApplyRatio` and `DelApplyRatio` do not;
- `contribution`: what one source adds to an attribute, and how each operation changes it;
- `kept`: the sum of the additions that no deletion has followed, a sum of integers that does not wrap. After every
  sequence of calls its 64 bits are what the tables hold (`contribution_run`), so that the totals are what they should
  be as soon as the ratio of the attribute was added to once, if the sums fit into 64 bits (`totals_iff`).
-/

namespace RoundGame.World

open Lua

/-! ## Attribute blocks -/

/-- An attribute and its sources. -/
abbrev Applied := AList fun _ : String => Accum.Table Int Integer

/-- What a source adds to an attribute. -/
def contribution (m : Applied) (iSrc : Int) (sKey : String) : Integer := Accum.value ((m.lookup sKey).getD ∅) iSrc

/-- `AddApply` and `AddApplyRatio`, each on its own table. -/
def addApplied (m : Applied) (iSrc : Int) (sKey : String) (iVal : Integer) : Applied :=
  m.insert sKey (Accum.add ((m.lookup sKey).getD ∅) iSrc iVal)

/-- `DelApply` and `DelApplyRatio`, each on its own table: what the source had added, and the table without it. -/
def delApplied (m : Applied) (iSrc : Int) (sKey : String) : Integer × Applied :=
  match m.lookup sKey with
  | none => (0, m)
  | some mApply => (Accum.value mApply iSrc, m.insert sKey (mApply.erase iSrc))

/-- One of the loops of `ClearAllBySrc`. -/
def clearApplied (m : Applied) (iSrc : Int) : Applied :=
  ⟨m.entries.map fun e => ⟨e.1, e.2.erase iSrc⟩, List.NodupKeys.map₂ (fun _ mApply => mApply.erase iSrc) _ m.nodupKeys⟩

structure CAttrBlock where
  mApply : Applied := ∅
  mApplyRatio : Applied := ∅

namespace CAttrBlock

def addApply (b : CAttrBlock) (iSrc : Int) (sKey : String) (iVal : Integer) : CAttrBlock :=
  { b with mApply := addApplied b.mApply iSrc sKey iVal }

def addApplyRatio (b : CAttrBlock) (iSrc : Int) (sKey : String) (iVal : Integer) : CAttrBlock :=
  { b with mApplyRatio := addApplied b.mApplyRatio iSrc sKey iVal }

def getApply (b : CAttrBlock) (sKey : String) : Integer := Accum.total ((b.mApply.lookup sKey).getD ∅)

/-- Unlike `GetApply`, this raises for an attribute that nothing was ever added to. -/
def getApplyRatio (b : CAttrBlock) (sKey : String) : Except String Integer :=
  match b.mApplyRatio.lookup sKey with
  | none => .error "bad argument #1 to 'pairs' (table expected, got nil)"
  | some mApplyRatio => .ok (Accum.total mApplyRatio)

def delApply (b : CAttrBlock) (iSrc : Int) (sKey : String) : Integer × CAttrBlock :=
  let (iSrcVal, mApply) := delApplied b.mApply iSrc sKey
  (iSrcVal, { b with mApply := mApply })

/-- Unlike `DelApply`, this raises for an attribute that nothing was ever added to. -/
def delApplyRatio (b : CAttrBlock) (iSrc : Int) (sKey : String) : Except String (Integer × CAttrBlock) :=
  match b.mApplyRatio.lookup sKey with
  | none => .error "attempt to index a nil value (local 'mApplyRatio')"
  | some _ =>
    let (iSrcVal, mApplyRatio) := delApplied b.mApplyRatio iSrc sKey
    .ok (iSrcVal, { b with mApplyRatio := mApplyRatio })

def clearAllBySrc (b : CAttrBlock) (iSrc : Int) : CAttrBlock :=
  { mApply := clearApplied b.mApply iSrc, mApplyRatio := clearApplied b.mApplyRatio iSrc }

end CAttrBlock

/-! ## Contributions -/

section Contributions

theorem contribution_addApplied (m : Applied) (iSrc iSrc' : Int) (sKey sKey' : String) (iVal : Integer) :
    contribution (addApplied m iSrc sKey iVal) iSrc' sKey' =
      contribution m iSrc' sKey' + if sKey' = sKey then (if iSrc' = iSrc then iVal else 0) else 0 := by
  unfold contribution addApplied
  by_cases h : sKey' = sKey
  · subst h
    rw [AList.lookup_insert, Option.getD_some, Accum.value_add, if_pos rfl]
  · rw [AList.lookup_insert_ne h, if_neg h, add_zero]

/-- A deletion returns the contribution it takes away. -/
theorem delApplied_fst (m : Applied) (iSrc : Int) (sKey : String) :
    (delApplied m iSrc sKey).1 = contribution m iSrc sKey := by
  unfold delApplied contribution
  cases m.lookup sKey <;> rfl

theorem contribution_delApplied (m : Applied) (iSrc iSrc' : Int) (sKey sKey' : String) :
    contribution (delApplied m iSrc sKey).2 iSrc' sKey' =
      if iSrc' = iSrc ∧ sKey' = sKey then 0 else contribution m iSrc' sKey' := by
  unfold delApplied contribution
  cases hm : m.lookup sKey with
  | none =>
    by_cases h : iSrc' = iSrc ∧ sKey' = sKey
    · rw [if_pos h, h.2]
      simp [hm]
    · rw [if_neg h]
  | some mApply =>
    by_cases h : sKey' = sKey
    · subst h
      rw [AList.lookup_insert, hm, Option.getD_some, Option.getD_some, Accum.value_erase]
      simp
    · rw [AList.lookup_insert_ne h, if_neg fun hc => h hc.2]

theorem lookup_delApplied (m : Applied) (iSrc : Int) (sKey : String) :
    (delApplied m iSrc sKey).2.lookup sKey = (m.lookup sKey).map fun mApply => mApply.erase iSrc := by
  unfold delApplied
  cases hm : m.lookup sKey with
  | none => simp [hm]
  | some mApply => simp

theorem lookup_clearApplied (m : Applied) (iSrc : Int) (sKey : String) :
    (clearApplied m iSrc).lookup sKey = (m.lookup sKey).map fun mApply => mApply.erase iSrc :=
  List.dlookup_map₂ (l := m.entries) (f := fun _ mApply => mApply.erase iSrc) sKey

theorem contribution_clearApplied (m : Applied) (iSrc iSrc' : Int) (sKey : String) :
    contribution (clearApplied m iSrc) iSrc' sKey = if iSrc' = iSrc then 0 else contribution m iSrc' sKey := by
  unfold contribution
  rw [lookup_clearApplied]
  cases m.lookup sKey with
  | none => simp
  | some mApply => exact Accum.value_erase mApply iSrc iSrc'

/-- What `GetApply` returns is the contribution of one source and those of the others. -/
theorem getApply_eq (b : CAttrBlock) (iSrc : Int) (sKey : String) :
    b.getApply sKey =
      contribution b.mApply iSrc sKey + Accum.total (((b.mApply.lookup sKey).getD ∅).erase iSrc) :=
  Accum.total_eq _ _

theorem getApplyRatio_eq {b : CAttrBlock} {sKey : String} {i : Integer} (h : b.getApplyRatio sKey = .ok i)
    (iSrc : Int) :
    i = contribution b.mApplyRatio iSrc sKey + Accum.total (((b.mApplyRatio.lookup sKey).getD ∅).erase iSrc) := by
  unfold CAttrBlock.getApplyRatio at h
  unfold contribution
  cases hm : b.mApplyRatio.lookup sKey with
  | none =>
    rw [hm] at h
    cases h
  | some m =>
    rw [hm] at h
    cases h
    exact Accum.total_eq m iSrc

end Contributions

/-! ## Sequences of calls -/

namespace CAttrBlock

/-- The calls that change a block. -/
inductive Op
  | addApply (iSrc : Int) (sKey : String) (iVal : Integer)
  | addApplyRatio (iSrc : Int) (sKey : String) (iVal : Integer)
  | delApply (iSrc : Int) (sKey : String)
  | delApplyRatio (iSrc : Int) (sKey : String)
  | clearAllBySrc (iSrc : Int)

/-- The block after a call, whether it raised or not. -/
def after (b : CAttrBlock) : Op → CAttrBlock
  | .addApply iSrc sKey iVal => b.addApply iSrc sKey iVal
  | .addApplyRatio iSrc sKey iVal => b.addApplyRatio iSrc sKey iVal
  | .delApply iSrc sKey => (b.delApply iSrc sKey).2
  | .delApplyRatio iSrc sKey =>
    match b.delApplyRatio iSrc sKey with
    | .error _ => b
    | .ok (_, b') => b'
  | .clearAllBySrc iSrc => b.clearAllBySrc iSrc

/-- A new block after some calls. -/
def run (ops : List Op) : CAttrBlock := ops.foldl after {}

/-- The table of the attributes, or that of their ratios. -/
def applied (b : CAttrBlock) (bRatio : Bool) : Applied := if bRatio then b.mApplyRatio else b.mApply

namespace Op

def iSrc : Op → Int
  | addApply iSrc _ _ | addApplyRatio iSrc _ _ | delApply iSrc _ | delApplyRatio iSrc _ | clearAllBySrc iSrc => iSrc

/-- Whether a call is an addition. -/
def isAdd : Op → Bool
  | addApply _ _ _ | addApplyRatio _ _ _ => true
  | _ => false

variable (bRatio : Bool) (iSrc : Int) (sKey : String)

/-- What a call adds for a source and a key, to one of the tables. -/
def added : Op → Option Integer
  | addApply iSrc' sKey' iVal => if bRatio = false ∧ iSrc = iSrc' ∧ sKey = sKey' then some iVal else none
  | addApplyRatio iSrc' sKey' iVal => if bRatio = true ∧ iSrc = iSrc' ∧ sKey = sKey' then some iVal else none
  | _ => none

/-- Whether a call deletes a source for a key, from one of the tables. -/
def deletes : Op → Bool
  | delApply iSrc' sKey' => bRatio = false ∧ iSrc = iSrc' ∧ sKey = sKey'
  | delApplyRatio iSrc' sKey' => bRatio = true ∧ iSrc = iSrc' ∧ sKey = sKey'
  | clearAllBySrc iSrc' => iSrc = iSrc'
  | _ => false

end Op

/-- The sum of the values added for a source and a key since the source was last deleted for the key or cleared. -/
def kept (bRatio : Bool) (ops : List Op) (iSrc : Int) (sKey : String) : Int :=
  (((ops.reverse.takeWhile fun op => !op.deletes bRatio iSrc sKey).filterMap (Op.added bRatio iSrc sKey)).map
    BitVec.toInt).sum

/-- The sources of some calls. -/
def sources (ops : List Op) : Finset Int := (ops.map Op.iSrc).toFinset

/-- What the total of an attribute, or of its ratio, should be after some calls. -/
def keptTotal (bRatio : Bool) (ops : List Op) (sKey : String) : Int :=
  ∑ iSrc ∈ sources ops, kept bRatio ops iSrc sKey

/-- What a block should do for a key after some calls. -/
structure Right (ops : List Op) (sKey : String) : Prop where
  getApply : ((run ops).getApply sKey).toInt = keptTotal false ops sKey
  getApplyRatio : ((run ops).getApplyRatio sKey).map BitVec.toInt = .ok (keptTotal true ops sKey)
  /-- `DelApply` returns what the source had, by which the total falls. -/
  delApply : ∀ iSrc, ((run ops).delApply iSrc sKey).1.toInt = kept false ops iSrc sKey ∧
    (((run ops).delApply iSrc sKey).2.getApply sKey).toInt =
      ((run ops).getApply sKey).toInt - ((run ops).delApply iSrc sKey).1.toInt
  delApplyRatio : ∀ iSrc, ∃ iSrcVal b iTotal, (run ops).delApplyRatio iSrc sKey = .ok (iSrcVal, b) ∧
    iSrcVal.toInt = kept true ops iSrc sKey ∧ (run ops).getApplyRatio sKey = .ok iTotal ∧
    (b.getApplyRatio sKey).map BitVec.toInt = .ok (iTotal.toInt - iSrcVal.toInt)
  /-- Additions in another order leave the same totals. -/
  order : ∀ pre adds adds' post, ops = pre ++ adds ++ post → (∀ op ∈ adds, op.isAdd) → adds.Perm adds' →
    (run (pre ++ adds' ++ post)).getApply sKey = (run ops).getApply sKey ∧
    (run (pre ++ adds' ++ post)).getApplyRatio sKey = (run ops).getApplyRatio sKey

/-- What a source has kept, the total and the total without the source fit into the integers of Lua. -/
structure Fits (bRatio : Bool) (ops : List Op) (sKey : String) : Prop where
  total : IsInteger (keptTotal bRatio ops sKey)
  source : ∀ iSrc, IsInteger (kept bRatio ops iSrc sKey)
  others : ∀ iSrc, IsInteger (keptTotal bRatio ops sKey - kept bRatio ops iSrc sKey)

/-! ### What a call does -/

section After

variable (bRatio : Bool) (b : CAttrBlock) (iSrc : Int) (sKey : String)

theorem after_delApplyRatio (iSrc' : Int) (sKey' : String) : b.after (.delApplyRatio iSrc' sKey') =
    { b with mApplyRatio := (delApplied b.mApplyRatio iSrc' sKey').2 } := by
  simp only [after, delApplyRatio]
  cases h : b.mApplyRatio.lookup sKey' with
  | none => simp only [delApplied, h]
  | some mApplyRatio => rfl

/-- How each call changes a contribution. -/
theorem contribution_after (op : Op) : contribution ((b.after op).applied bRatio) iSrc sKey =
    if op.deletes bRatio iSrc sKey then 0
    else contribution (b.applied bRatio) iSrc sKey + (op.added bRatio iSrc sKey).getD 0 := by
  cases op with
  | addApply iSrc' sKey' iVal =>
    cases bRatio
    · simp only [after, addApply, applied, Bool.false_eq_true, if_false, contribution_addApplied, Op.deletes, Op.added]
      by_cases hs : iSrc = iSrc' <;> by_cases hk : sKey = sKey' <;> simp [hs, hk]
    · simp [after, addApply, applied, Op.deletes, Op.added]
  | addApplyRatio iSrc' sKey' iVal =>
    cases bRatio
    · simp [after, addApplyRatio, applied, Op.deletes, Op.added]
    · simp only [after, addApplyRatio, applied, if_true, contribution_addApplied, Op.deletes, Op.added]
      by_cases hs : iSrc = iSrc' <;> by_cases hk : sKey = sKey' <;> simp [hs, hk]
  | delApply iSrc' sKey' =>
    cases bRatio
    · simp [after, delApply, applied, contribution_delApplied, Op.deletes, Op.added]
    · simp [after, delApply, applied, Op.deletes, Op.added]
  | delApplyRatio iSrc' sKey' =>
    rw [after_delApplyRatio]
    cases bRatio
    · simp [applied, Op.deletes, Op.added]
    · simp [applied, contribution_delApplied, Op.deletes, Op.added]
  | clearAllBySrc iSrc' =>
    cases bRatio <;> simp [after, clearAllBySrc, applied, contribution_clearApplied, Op.deletes, Op.added]

/-- A key has a table of ratios once something was added to its ratio. -/
theorem mem_after (op : Op) :
    sKey ∈ (b.after op).mApplyRatio ↔ sKey ∈ b.mApplyRatio ∨ ∃ iSrc iVal, op = .addApplyRatio iSrc sKey iVal := by
  cases op with
  | addApply iSrc' sKey' iVal => simp [after, addApply]
  | addApplyRatio iSrc' sKey' iVal =>
    simp only [after, addApplyRatio, addApplied, AList.mem_insert, Op.addApplyRatio.injEq]
    constructor
    · rintro (rfl | h)
      · exact Or.inr ⟨iSrc', iVal, rfl, rfl, rfl⟩
      · exact Or.inl h
    · rintro (h | ⟨_, _, _, hkey, _⟩)
      · exact Or.inr h
      · exact Or.inl hkey.symm
  | delApply iSrc' sKey' => simp [after, delApply]
  | delApplyRatio iSrc' sKey' =>
    rw [after_delApplyRatio, ← AList.lookup_isSome, ← AList.lookup_isSome, delApplied]
    cases hm : b.mApplyRatio.lookup sKey' with
    | none => simp
    | some mApplyRatio =>
      by_cases h : sKey = sKey'
      · subst h
        simp [hm]
      · simp [AList.lookup_insert_ne h]
  | clearAllBySrc iSrc' =>
    rw [after, clearAllBySrc, ← AList.lookup_isSome, ← AList.lookup_isSome, lookup_clearApplied, Option.isSome_map]
    simp

end After

/-! ### What a sequence of calls does -/

section Run

variable (bRatio : Bool) (ops : List Op) (iSrc : Int) (sKey : String)

theorem run_concat (op : Op) : run (ops ++ [op]) = (run ops).after op := by
  unfold run
  rw [List.foldl_append, List.foldl_cons, List.foldl_nil]

theorem kept_concat (op : Op) : kept bRatio (ops ++ [op]) iSrc sKey =
    if op.deletes bRatio iSrc sKey then 0
    else kept bRatio ops iSrc sKey + ((op.added bRatio iSrc sKey).getD 0).toInt := by
  unfold kept
  rw [List.reverse_append, List.reverse_singleton, List.singleton_append, List.takeWhile_cons]
  cases op.deletes bRatio iSrc sKey with
  | true => simp
  | false =>
    cases h : op.added bRatio iSrc sKey with
    | none => simp [h]
    | some iVal => simp [h, add_comm]

/-- The tables hold what was added since the last deletions. -/
theorem contribution_run : contribution ((run ops).applied bRatio) iSrc sKey = kept bRatio ops iSrc sKey := by
  induction ops using List.reverseRecOn with
  | nil => cases bRatio <;> rfl
  | append_singleton ops op ih =>
    rw [run_concat, contribution_after, ih, kept_concat]
    split
    · rfl
    · rw [Int.cast_add, intCast_toInt]

theorem mem_run : sKey ∈ (run ops).mApplyRatio ↔ ∃ iSrc iVal, .addApplyRatio iSrc sKey iVal ∈ ops := by
  induction ops using List.reverseRecOn with
  | nil => simp [run]
  | append_singleton ops op ih =>
    rw [run_concat, mem_after, ih]
    simp only [List.mem_append, List.mem_singleton]
    grind

/-- A source without calls has nothing. -/
theorem kept_eq_zero (h : iSrc ∉ sources ops) : kept bRatio ops iSrc sKey = 0 := by
  have hadd : ∀ op ∈ ops, op.added bRatio iSrc sKey = none := by
    intro op hop
    have hne : iSrc ≠ op.iSrc := by
      rintro rfl
      exact h (List.mem_toFinset.2 (List.mem_map_of_mem hop))
    cases op <;> simp_all [Op.added, Op.iSrc]
  have hnone : (ops.reverse.takeWhile fun op => !op.deletes bRatio iSrc sKey).filterMap (Op.added bRatio iSrc sKey) =
      [] := by
    refine List.filterMap_eq_nil_iff.2 ?_
    intro op hop
    exact hadd op (List.mem_reverse.1 ((List.takeWhile_sublist _).subset hop))
  rw [kept, hnone, List.map_nil, List.sum_nil]

/-- A table of the block adds up to what was added since the last deletions. -/
theorem total_run : Accum.total ((((run ops).applied bRatio).lookup sKey).getD ∅) = keptTotal bRatio ops sKey := by
  have hzero : ∀ iSrc, iSrc ∉ sources ops → contribution ((run ops).applied bRatio) iSrc sKey = 0 := by
    intro iSrc h
    rw [contribution_run, kept_eq_zero bRatio ops iSrc sKey h, Int.cast_zero]
  rw [keptTotal, Int.cast_sum]
  refine (Accum.total_eq_sum _ (sources ops) hzero).trans ?_
  exact Finset.sum_congr rfl fun iSrc _ => contribution_run bRatio ops iSrc sKey

theorem getApply_run : (run ops).getApply sKey = keptTotal false ops sKey := total_run false ops sKey

theorem getApplyRatio_of_mem {b : CAttrBlock} (h : sKey ∈ b.mApplyRatio) :
    b.getApplyRatio sKey = .ok (Accum.total ((b.mApplyRatio.lookup sKey).getD ∅)) := by
  obtain ⟨mApplyRatio, hm⟩ := Option.isSome_iff_exists.1 (AList.lookup_isSome.2 h)
  rw [getApplyRatio, hm, Option.getD_some]

theorem getApplyRatio_run (h : sKey ∈ (run ops).mApplyRatio) :
    (run ops).getApplyRatio sKey = .ok (keptTotal true ops sKey : Integer) := by
  rw [getApplyRatio_of_mem sKey h]
  exact congrArg Except.ok (total_run true ops sKey)

theorem getApplyRatio_of_notMem {b : CAttrBlock} (h : sKey ∉ b.mApplyRatio) :
    b.getApplyRatio sKey = .error "bad argument #1 to 'pairs' (table expected, got nil)" := by
  rw [getApplyRatio, AList.lookup_eq_none.2 h]

end Run

/-! ### The order of additions -/

section Order

variable (bRatio : Bool) (iSrc : Int) (sKey : String)

theorem kept_append_adds (ops : List Op) : ∀ adds : List Op, (∀ op ∈ adds, op.isAdd) →
    kept bRatio (ops ++ adds) iSrc sKey =
      kept bRatio ops iSrc sKey + (adds.map fun op => ((op.added bRatio iSrc sKey).getD 0).toInt).sum := by
  intro adds hadds
  induction adds using List.reverseRecOn with
  | nil => simp
  | append_singleton adds op ih =>
    have hop : op.deletes bRatio iSrc sKey = false := by
      have h := hadds op (by simp)
      cases op <;> simp_all [Op.isAdd, Op.deletes]
    rw [← List.append_assoc, kept_concat, hop, if_neg Bool.false_ne_true, ih fun o ho => hadds o (by simp [ho])]
    simp [add_assoc]

/-- What is left of two histories that agree so far still agrees after the same calls. -/
theorem kept_append_congr {ops ops' : List Op} (h : kept bRatio ops iSrc sKey = kept bRatio ops' iSrc sKey)
    (post : List Op) : kept bRatio (ops ++ post) iSrc sKey = kept bRatio (ops' ++ post) iSrc sKey := by
  induction post using List.reverseRecOn with
  | nil => simpa using h
  | append_singleton post op ih => rw [← List.append_assoc, ← List.append_assoc, kept_concat, kept_concat, ih]

variable {pre adds adds' post : List Op} (hadds : ∀ op ∈ adds, op.isAdd) (hperm : adds.Perm adds')

include hadds hperm in
/-- Additions in another order leave the same of each source. -/
theorem kept_perm :
    kept bRatio (pre ++ adds' ++ post) iSrc sKey = kept bRatio (pre ++ adds ++ post) iSrc sKey := by
  refine kept_append_congr bRatio iSrc sKey ?_ post
  rw [kept_append_adds bRatio iSrc sKey pre adds hadds,
    kept_append_adds bRatio iSrc sKey pre adds' fun op hop => hadds op (hperm.mem_iff.2 hop)]
  rw [(hperm.map fun op => ((op.added bRatio iSrc sKey).getD 0).toInt).sum_eq]

include hadds hperm in
theorem keptTotal_perm :
    keptTotal bRatio (pre ++ adds' ++ post) sKey = keptTotal bRatio (pre ++ adds ++ post) sKey := by
  have hsources : sources (pre ++ adds' ++ post) = sources (pre ++ adds ++ post) := by
    unfold sources
    refine List.toFinset_eq_of_perm _ _ (List.Perm.map _ ?_)
    exact ((hperm.symm.append_left pre).append_right post)
  unfold keptTotal
  rw [hsources]
  exact Finset.sum_congr rfl fun iSrc _ => kept_perm bRatio iSrc sKey hadds hperm

end Order

/-! ### Totals -/

section Totals

variable (ops : List Op) (sKey : String)

/-- A deletion returns the 64 bits of what the source has kept, and takes them from the total. -/
theorem delApply_run (iSrc : Int) : ((run ops).delApply iSrc sKey).1 = kept false ops iSrc sKey ∧
    ((run ops).delApply iSrc sKey).2.getApply sKey =
      (keptTotal false ops sKey - kept false ops iSrc sKey : Int) := by
  have hkept : contribution (run ops).mApply iSrc sKey = kept false ops iSrc sKey :=
    contribution_run false ops iSrc sKey
  have hafter : ((run ops).delApply iSrc sKey).2.getApply sKey =
      Accum.total ((((run ops).mApply.lookup sKey).getD ∅).erase iSrc) := by
    simp only [delApply, getApply, lookup_delApplied]
    cases (run ops).mApply.lookup sKey <;> rfl
  have htotal := getApply_eq (run ops) iSrc sKey
  rw [getApply_run, hkept] at htotal
  refine ⟨(delApplied_fst _ _ _).trans hkept, ?_⟩
  rw [hafter, Int.cast_sub, htotal, add_sub_cancel_left]

theorem delApplyRatio_run (h : sKey ∈ (run ops).mApplyRatio) (iSrc : Int) : ∃ b,
    (run ops).delApplyRatio iSrc sKey = .ok ((kept true ops iSrc sKey : Integer), b) ∧
      b.getApplyRatio sKey = .ok (keptTotal true ops sKey - kept true ops iSrc sKey : Int) := by
  obtain ⟨m, hm⟩ := Option.isSome_iff_exists.1 (AList.lookup_isSome.2 h)
  have hkept : contribution (run ops).mApplyRatio iSrc sKey = kept true ops iSrc sKey :=
    contribution_run true ops iSrc sKey
  have hrest := getApplyRatio_eq (getApplyRatio_run ops sKey h) iSrc
  rw [hm, Option.getD_some, hkept] at hrest
  refine ⟨{ run ops with mApplyRatio := (delApplied (run ops).mApplyRatio iSrc sKey).2 }, ?_, ?_⟩
  · rw [delApplyRatio, hm, ← hkept, ← delApplied_fst]
  · simp only [getApplyRatio, lookup_delApplied, hm, Option.map_some]
    rw [Int.cast_sub, hrest, add_sub_cancel_left]

theorem order_run {pre adds adds' post : List Op} (hadds : ∀ op ∈ adds, op.isAdd) (hperm : adds.Perm adds') :
    (run (pre ++ adds' ++ post)).getApply sKey = (run (pre ++ adds ++ post)).getApply sKey ∧
      (run (pre ++ adds' ++ post)).getApplyRatio sKey = (run (pre ++ adds ++ post)).getApplyRatio sKey := by
  refine ⟨?_, ?_⟩
  · rw [getApply_run, getApply_run, keptTotal_perm false sKey hadds hperm]
  · have hcalls : ∀ op, op ∈ pre ++ adds' ++ post ↔ op ∈ pre ++ adds ++ post := by
      intro op
      simp only [List.mem_append, hperm.mem_iff]
    have hkey : sKey ∈ (run (pre ++ adds' ++ post)).mApplyRatio ↔ sKey ∈ (run (pre ++ adds ++ post)).mApplyRatio := by
      simp only [mem_run, hcalls]
    by_cases h : sKey ∈ (run (pre ++ adds ++ post)).mApplyRatio
    · rw [getApplyRatio_run _ sKey h, getApplyRatio_run _ sKey (hkey.2 h), keptTotal_perm true sKey hadds hperm]
    · rw [getApplyRatio_of_notMem sKey h, getApplyRatio_of_notMem sKey fun hc => h (hkey.1 hc)]

theorem fits_of_right (h : Right ops sKey) : sKey ∈ (run ops).mApplyRatio ∧ ∀ bRatio, Fits bRatio ops sKey := by
  have hkey : sKey ∈ (run ops).mApplyRatio := by
    by_contra hkey
    have hget := h.getApplyRatio
    rw [getApplyRatio_of_notMem sKey hkey] at hget
    cases hget
  refine ⟨hkey, fun bRatio => ?_⟩
  cases bRatio with
  | false =>
    have hget := h.getApply
    have hdel := h.delApply
    simp only [hget, delApply_run, toInt_intCast_iff] at hdel
    rw [getApply_run, toInt_intCast_iff] at hget
    refine ⟨hget, fun iSrc => (hdel iSrc).1, fun iSrc => ?_⟩
    have hafter := (hdel iSrc).2
    rwa [toInt_intCast_iff.2 (hdel iSrc).1, toInt_intCast_iff] at hafter
  | true =>
    have hget := h.getApplyRatio
    rw [getApplyRatio_run ops sKey hkey] at hget
    injection hget with hget
    rw [toInt_intCast_iff] at hget
    have hdel : ∀ iSrc, IsInteger (kept true ops iSrc sKey) ∧
        IsInteger (keptTotal true ops sKey - kept true ops iSrc sKey) := by
      intro iSrc
      obtain ⟨iSrcVal, b, iTotal, hok, hval, htotal, hafter⟩ := h.delApplyRatio iSrc
      obtain ⟨b', hok', hafter'⟩ := delApplyRatio_run ops sKey hkey iSrc
      rw [hok', Except.ok.injEq, Prod.mk.injEq] at hok
      obtain ⟨rfl, rfl⟩ := hok
      rw [getApplyRatio_run ops sKey hkey] at htotal
      cases htotal
      rw [hafter'] at hafter
      injection hafter with hafter
      rw [hval, toInt_intCast_iff.2 hget, toInt_intCast_iff] at hafter
      exact ⟨toInt_intCast_iff.1 hval, hafter⟩
    exact ⟨hget, fun iSrc => (hdel iSrc).1, fun iSrc => (hdel iSrc).2⟩

theorem right_of_fits (hkey : sKey ∈ (run ops).mApplyRatio) (h : ∀ bRatio, Fits bRatio ops sKey) : Right ops sKey := by
  have htotal : ∀ bRatio, (keptTotal bRatio ops sKey : Integer).toInt = keptTotal bRatio ops sKey :=
    fun bRatio => toInt_intCast_iff.2 (h bRatio).total
  have hkept : ∀ bRatio iSrc, (kept bRatio ops iSrc sKey : Integer).toInt = kept bRatio ops iSrc sKey :=
    fun bRatio iSrc => toInt_intCast_iff.2 ((h bRatio).source iSrc)
  have hrest : ∀ bRatio iSrc, ((keptTotal bRatio ops sKey - kept bRatio ops iSrc sKey : Int) : Integer).toInt =
      keptTotal bRatio ops sKey - kept bRatio ops iSrc sKey :=
    fun bRatio iSrc => toInt_intCast_iff.2 ((h bRatio).others iSrc)
  refine ⟨?_, ?_, fun iSrc => ⟨?_, ?_⟩, fun iSrc => ?_, ?_⟩
  · rw [getApply_run, htotal]
  · rw [getApplyRatio_run ops sKey hkey]
    exact congrArg Except.ok (htotal true)
  · rw [(delApply_run ops sKey iSrc).1, hkept]
  · rw [(delApply_run ops sKey iSrc).1, (delApply_run ops sKey iSrc).2, getApply_run, htotal, hkept, hrest]
  · obtain ⟨b, hok, hafter⟩ := delApplyRatio_run ops sKey hkey iSrc
    refine ⟨_, b, _, hok, hkept true iSrc, getApplyRatio_run ops sKey hkey, ?_⟩
    rw [hafter, htotal, hkept]
    exact congrArg Except.ok (hrest true iSrc)
  · rintro pre adds adds' post rfl hadds hperm
    exact order_run sKey hadds hperm

/-- After every sequence of calls, all that a block does for a key is right iff something was added to its ratio and
the sums for the key fit into 64 bits. -/
theorem totals_iff : Right ops sKey ↔
    (∃ iSrc iVal, .addApplyRatio iSrc sKey iVal ∈ ops) ∧ ∀ bRatio, Fits bRatio ops sKey := by
  rw [← mem_run]
  exact ⟨fits_of_right ops sKey, fun h => right_of_fits ops sKey h.1 h.2⟩

/-- On a new block `GetApplyRatio` raises. -/
theorem not_totals : ¬ Right [] "max_hp" := by
  intro h
  have hget := h.getApplyRatio
  revert hget
  decide

end Totals

end CAttrBlock

end RoundGame.World
