import Mathlib.Data.List.AList
import Mathlib.Data.List.Induction
import RoundGame.Lib.LuaSpec
import RoundGame.World.BlockOps

/-!
# Saving and loading a bag

The bag with the back-pointers `m_iPos` of its items, which `AddItemObj` assigns and `PackItemNet` sends to the client.

- `Save` writes each item under its position as a string, in the order in which `pairs` visits the bag; `Load` creates
  the items again.
- `RoundTrip`: what loading a saved bag should give. `Load` assigns no `m_iPos` (`noPos_load`), so it gives that iff the
  bag is empty (`roundTrip_iff`), which it is as long as nothing is added (`bag_iff`).
-/

namespace RoundGame.World

open Lua

/-- An item in a bag; `m_iPos` is not assigned by `New`. -/
structure BagItem extends CItem where
  iPos : Option Int

/-- An item of a `GS2CItemList`. -/
structure ItemNet where
  sid : Val
  item_id : Nat
  amount : Val
  pos : Option Int

def BagItem.packItemNet (o : BagItem) : ItemNet := ⟨o.iSid, o.iItem, o.iAmount, o.iPos⟩

structure Bag where
  mItemList : AList fun _ : Int => BagItem
  bDirty : Bool

namespace Bag

def new : Bag := ⟨∅, false⟩

/-! ## The operations -/

/-- The first free position. -/
def validAddItemObj (b : Bag) : Option Int :=
  ((List.range CItemCtrl.getMaxRange).map fun i : Nat => (i : Int) + 1).find?
    fun iPos => (b.mItemList.lookup iPos).isNone

def addItemObj (o : CItem) : LuaM Bag PUnit := do
  match (← get).validAddItemObj with
  | none => return
  | some iPos => modify fun b => { mItemList := b.mItemList.insert iPos ⟨o, some iPos⟩, bDirty := true }

/-- A method of the item at a position. -/
def onItem (iPos : Int) (x : LuaM CItem PUnit) (b : Bag) : Bag :=
  match b.mItemList.lookup iPos with
  | none => b
  | some o => { b with mItemList := b.mItemList.insert iPos { o with toCItem := safeCall x o.toCItem } }

/-- `Save`, where `l` are the positions and items in the order of `pairs`. -/
def save (l : List (Sigma fun _ : Int => BagItem)) : Val :=
  .tbl [(.str "itemdata", .tbl (l.map fun e => (.str (toString e.1), e.2.toCItem.save)))]

/-- One entry of the stored bag. -/
def loadEntry (env : ItemEnv) (e : Key × Val) : LuaM (Bag × CItemMgr) PUnit := do
  let oItem ← (CItemMgr.loadItem env e.2).within Prod.snd fun g s => (s.1, g)
  match tonumber e.1 with
  | none => throw "index is nil"
  | some iPos => modify fun s => ({ s.1 with mItemList := s.1.mItemList.insert iPos ⟨oItem, none⟩ }, s.2)

def load (env : ItemEnv) (m : Val) : LuaM (Bag × CItemMgr) PUnit := do
  if !m.truthy then return
  let itemdata ← LuaM.lift (m.index "itemdata")
  let entries ← LuaM.lift (if itemdata.truthy then itemdata.pairs else .ok [])
  entries.forM (loadEntry env)

/-! ## Bags -/

/-- The operations on a bag and its items; an item that is added has a configuration. -/
inductive Op (d : Daobiao)
  | addItemObj (o : CItem) (configured : (d.item o.iSid).isSome)
  | addAmount (iPos iAdd : Int)
  | setData (iPos : Int) (k : Key) (v : Val)

/-- Whether an operation adds an item. -/
def Op.adds {d : Daobiao} : Op d → Prop
  | addItemObj _ _ => True
  | _ => False

variable {d : Daobiao}

/-- The bag after an operation, whether it raised or not. -/
def step (b : Bag) : Op d → Bag
  | .addItemObj o _ => safeCall (addItemObj o) b
  | .addAmount iPos iAdd => b.onItem iPos (CItem.addAmount d iAdd)
  | .setData iPos k v => b.onItem iPos (CItem.setData k v)

/-- A new bag after some operations. -/
def after (ops : List (Op d)) : Bag := ops.foldl step new

/-- What an item should be after saving and loading, at the position it is stored under. -/
structure Restored (iPos : Int) (o o' : BagItem) : Prop where
  sid : o'.iSid = o.iSid
  amount : o'.iAmount = o.iAmount
  data : o'.mData = o.mData
  pos : o'.iPos = some iPos
  net : o'.packItemNet = { o.packItemNet with item_id := o'.iItem }

/-- Saving a bag in any order and loading it into a new one succeeds, and restores the item at each position. -/
def RoundTrip (env : ItemEnv) (b : Bag) : Prop :=
  ∀ l, l.Perm b.mItemList.entries → ∀ g, Completes (load env (save l)) (new, g) ∧
    ∀ iPos, Option.Rel (Restored iPos) (b.mItemList.lookup iPos)
      ((safeCall (load env (save l)) (new, g)).1.mItemList.lookup iPos)

/-! ## The exact condition -/

/-- No item has a position. -/
def NoPos (s : Bag × CItemMgr) : Prop := ∀ iPos o, s.1.mItemList.lookup iPos = some o → o.iPos = none

theorem noPos_loadEntry (env : ItemEnv) (e : Key × Val) : Spec NoPos (loadEntry env e) (fun _ => NoPos) NoPos := by
  unfold loadEntry
  refine Spec.bind (R := fun _ => NoPos) ?_ fun oItem => ?_
  · have hkeeps : Keeps Prod.fst ((CItemMgr.loadItem env e.2).within (Prod.snd : Bag × CItemMgr → CItemMgr)
        fun g s => (s.1, g)) := fun _ => rfl
    refine Spec.of_keeps hkeeps ?_
    intro s t h hs
    unfold NoPos
    rwa [h]
  · cases tonumber e.1 with
    | none => exact Spec.throw fun _ => id
    | some iPos =>
      refine Spec.modify fun s hs iPos' o ho => ?_
      by_cases h : iPos' = iPos
      · subst h
        rw [AList.lookup_insert] at ho
        cases ho
        rfl
      · rw [AList.lookup_insert_ne h] at ho
        exact hs iPos' o ho

/-- `Load` gives no item a position. -/
theorem noPos_load (env : ItemEnv) (m : Val) : Spec NoPos (load env m) (fun _ => NoPos) NoPos := by
  unfold load
  split
  · exact Spec.pure fun _ => id
  · refine Spec.bind (R := fun _ => NoPos) (Spec.of_keeps (f := id) (Keeps.lift _) (by rintro s t rfl; exact id)) ?_
    intro itemdata
    refine Spec.bind (R := fun _ => NoPos) (Spec.of_keeps (f := id) (Keeps.lift _) (by rintro s t rfl; exact id)) ?_
    intro entries
    exact Spec.forM fun e _ => noPos_loadEntry env e

/-- Saving and loading a bag restores it iff there is nothing in it. -/
theorem roundTrip_iff (env : ItemEnv) (b : Bag) : RoundTrip env b ↔ b.mItemList = ∅ := by
  constructor
  · intro h
    by_contra hne
    -- some item is there before, and afterwards with its position
    obtain ⟨⟨iPos, o⟩, he⟩ := List.exists_mem_of_ne_nil b.mItemList.entries fun hnil => hne (AList.ext hnil)
    obtain ⟨-, hrel⟩ := h _ (List.Perm.refl _) CItemMgr.new
    have hbefore : b.mItemList.lookup iPos = some o := AList.mem_lookup_iff.2 he
    have hitem := hrel iPos
    rw [hbefore] at hitem
    cases hafter : (safeCall (load env (save b.mItemList.entries)) (new, CItemMgr.new)).1.mItemList.lookup iPos with
    | none =>
      rw [hafter] at hitem
      cases hitem
    | some o' =>
      have hnone : o'.iPos = none := by
        refine (noPos_load env _).safeCall (s := (new, CItemMgr.new)) ?_ iPos o' hafter
        intro iPos o ho
        cases ho
      rw [hafter] at hitem
      cases hitem with
      | some hrestored => exact absurd (hnone.symm.trans hrestored.pos) (by simp)
  · intro hempty l hl g
    rw [hempty] at hl ⊢
    have hnil : l = [] := List.perm_nil.1 hl
    subst hnil
    exact ⟨rfl, fun iPos => Option.Rel.none⟩

theorem addItemObj_eq (o : CItem) (b : Bag) : safeCall (addItemObj o) b =
    match b.validAddItemObj with
    | none => b
    | some iPos => { mItemList := b.mItemList.insert iPos ⟨o, some iPos⟩, bDirty := true } := by
  unfold addItemObj safeCall
  rw [LuaM.exec_bind, LuaM.exec_get]
  cases hpos : b.validAddItemObj with
  | none =>
    simp only [hpos]
    rfl
  | some iPos =>
    simp only [hpos]
    rfl

theorem insert_ne_empty (m : AList fun _ : Int => BagItem) (iPos : Int) (o : BagItem) : m.insert iPos o ≠ ∅ := by
  intro h
  have hl : (m.insert iPos o).lookup iPos = none := by
    rw [h]
    rfl
  rw [AList.lookup_insert] at hl
  cases hl

/-- A bag is empty after an operation iff it was before, and nothing was added. -/
theorem step_empty_iff (b : Bag) (op : Op d) : (b.step op).mItemList = ∅ ↔ b.mItemList = ∅ ∧ ¬ op.adds := by
  have honItem : ∀ iPos x, (b.onItem iPos x).mItemList = ∅ ↔ b.mItemList = ∅ := by
    intro iPos x
    unfold onItem
    cases hl : b.mItemList.lookup iPos with
    | none => rfl
    | some o =>
      refine iff_of_false (insert_ne_empty _ _ _) fun h => ?_
      rw [h] at hl
      cases hl
  cases op with
  | addItemObj o _ =>
    refine iff_of_false ?_ fun h => h.2 trivial
    show ¬ (safeCall (addItemObj o) b).mItemList = ∅
    rw [addItemObj_eq]
    cases hpos : b.validAddItemObj with
    | none =>
      -- a bag without a free position is not empty
      intro hempty
      have hfree : (1 : Int) ∈ (List.range CItemCtrl.getMaxRange).map fun i : Nat => (i : Int) + 1 := by decide
      have htaken := List.find?_eq_none.1 hpos 1 hfree
      have hempty' : b.mItemList = ∅ := hempty
      simp [hempty'] at htaken
    | some iPos => exact insert_ne_empty _ _ _
  | addAmount iPos iAdd => exact (honItem _ _).trans (by simp [Op.adds])
  | setData iPos k v => exact (honItem _ _).trans (by simp [Op.adds])

theorem after_empty_iff (ops : List (Op d)) : (after ops).mItemList = ∅ ↔ ∀ op ∈ ops, ¬ op.adds := by
  induction ops using List.reverseRecOn with
  | nil => simp [after, new]
  | append_singleton ops op ih =>
    have hstep : after (ops ++ [op]) = (after ops).step op := by simp [after]
    rw [hstep, step_empty_iff, ih]
    simp only [List.mem_append, List.mem_singleton]
    grind

/-- After every sequence of operations, with any modules of items, the bag can be saved and loaded iff no operation was
the addition of an item. -/
theorem bag_iff (env : ItemEnv) (ops : List (Op d)) : RoundTrip env (after ops) ↔ ∀ op ∈ ops, ¬ op.adds := by
  rw [roundTrip_iff, after_empty_iff]

/-- A bag with one experience item cannot be saved and loaded. -/
theorem not_bag : ¬ RoundTrip repoItems
    (after [Op.addItemObj (d := gamedata) ⟨.num 10001, 1, .num 1, .tbl [], false⟩ rfl]) := by
  rw [roundTrip_iff, after_empty_iff]
  intro h
  exact h _ List.mem_cons_self trivial

end Bag

end RoundGame.World
