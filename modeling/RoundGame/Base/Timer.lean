import RoundGame.Lib.PMap
import Mathlib.Data.List.Nodup
import Mathlib.Data.List.Perm.Basic

/-!
# `CTimer`: keyed one-shot timers over `skynet.timeout`

`AddTimeCb` takes an id from the free list, files the callback under it and hands `skynet.timeout` a closure that
holds the id and the key. The closure runs whatever callback its id has when it fires, and then clears the entry of
its *key*, the function of its id, and puts the id back (`endTimeCb`).

`Held o l` says how the three tables stand to the closures `l` that have not yet ended:

- the ids of `l` and of the free list are pairwise distinct and have been dispatched;
- every function is the callback of the closure that holds its id, and every key entry is the id of a closure of
  that key.

Each operation keeps it (`Held.addTimeCb`, `Held.delTimeCb`, `Held.release`, `Held.endTimeCb`).
-/

namespace RoundGame.Base

open Function

/-- A `CTimer`. `κ` is the type of the keys, `F` that of the callbacks. -/
structure CTimer (κ F : Type) where
  mKey2Index : κ → Option Nat
  mIndex2Func : Nat → Option F
  lReuseIndex : List Nat
  iDispatchId : Nat

namespace CTimer

variable {κ F : Type}

def new : CTimer κ F := ⟨fun _ => none, fun _ => none, [], 0⟩

/-- `Release` also assigns `m_mReuseIndex`, which nothing reads: the free list `m_lReuseIndex` stays. -/
def release (o : CTimer κ F) : CTimer κ F :=
  { o with mKey2Index := fun _ => none, mIndex2Func := fun _ => none }

def dispatchId (o : CTimer κ F) : Nat × CTimer κ F :=
  match o.lReuseIndex.getLast? with
  | some iCb => (iCb, { o with lReuseIndex := o.lReuseIndex.dropLast })
  | none => (o.iDispatchId + 1, { o with iDispatchId := o.iDispatchId + 1 })

def getTimeCb (o : CTimer κ F) (sKey : κ) : Option Nat := o.mKey2Index sKey

def delTimeCb (o : CTimer κ F) (sKey : κ) : CTimer κ F :=
  match o.mKey2Index sKey with
  | some iCb => { o with mIndex2Func := update o.mIndex2Func iCb none }
  | none => o

variable [DecidableEq κ]

/-- The first lines of `AddTimeCb`: a callback still filed under the key is dropped. -/
def dropOldCb (o : CTimer κ F) (sKey : κ) : CTimer κ F :=
  match o.mKey2Index sKey with
  | some iOldCb =>
    if (o.mIndex2Func iOldCb).isSome then
      { o with
        mIndex2Func := update o.mIndex2Func iOldCb none
        mKey2Index := update o.mKey2Index sKey none }
    else o
  | none => o

/-- `AddTimeCb`, with the id that the closure given to `skynet.timeout` holds. -/
def addTimeCb (o : CTimer κ F) (sKey : κ) (func : F) : Nat × CTimer κ F :=
  let d := (o.dropOldCb sKey).dispatchId
  (d.1, { d.2 with
    mKey2Index := update d.2.mKey2Index sKey (some d.1)
    mIndex2Func := update d.2.mIndex2Func d.1 (some func) })

/-- The last three lines of the closure. The entry of the key goes whatever id it holds by then. -/
def endTimeCb (o : CTimer κ F) (iCb : Nat) (sKey : κ) : CTimer κ F :=
  { o with
    mKey2Index := update o.mKey2Index sKey none
    mIndex2Func := update o.mIndex2Func iCb none
    lReuseIndex := o.lReuseIndex ++ [iCb] }

end CTimer

/-- A closure given to `skynet.timeout` by the `reg`-th call of `AddTimeCb`, with its upvalues. It fires once the
clock has reached `due`. -/
structure Timeout (κ : Type) where
  reg : Nat
  iCb : Nat
  sKey : κ
  due : Nat
  deriving DecidableEq

/-! ## What the operations write -/

namespace CTimer

section Del

variable {κ F : Type} (o : CTimer κ F)

@[simp] theorem delTimeCb_lReuseIndex (k : κ) : (o.delTimeCb k).lReuseIndex = o.lReuseIndex := by
  unfold delTimeCb; split <;> rfl

@[simp] theorem delTimeCb_iDispatchId (k : κ) : (o.delTimeCb k).iDispatchId = o.iDispatchId := by
  unfold delTimeCb; split <;> rfl

@[simp] theorem delTimeCb_mKey2Index (k : κ) : (o.delTimeCb k).mKey2Index = o.mKey2Index := by
  unfold delTimeCb; split <;> rfl

/-- `DelTimeCb` drops the function the key's entry names, and no other. -/
theorem delTimeCb_func (k : κ) (i : Nat) :
    (o.delTimeCb k).mIndex2Func i = if o.mKey2Index k = some i then none else o.mIndex2Func i := by
  unfold delTimeCb
  cases h : o.mKey2Index k with
  | none => simp
  | some j =>
    by_cases e : i = j
    · subst e; simp
    · simp [e, Ne.symm e]

/-- `DispatchId` takes the last id of the free list, or counts on. -/
theorem dispatchId_cases :
    (∃ l, o.lReuseIndex = l ++ [o.dispatchId.1] ∧ o.dispatchId.2 = { o with lReuseIndex := l }) ∨
      (o.lReuseIndex = [] ∧ o.dispatchId.1 = o.iDispatchId + 1 ∧
        o.dispatchId.2 = { o with iDispatchId := o.iDispatchId + 1 }) := by
  unfold dispatchId
  cases h : o.lReuseIndex.getLast? with
  | none => exact Or.inr ⟨List.getLast?_eq_none_iff.1 h, rfl, rfl⟩
  | some i =>
    obtain ⟨l, hl⟩ := List.getLast?_eq_some_iff.1 h
    exact Or.inl ⟨l, hl, by simp [hl]⟩

@[simp] theorem dispatchId_mKey2Index : o.dispatchId.2.mKey2Index = o.mKey2Index := by
  unfold dispatchId; split <;> rfl

@[simp] theorem dispatchId_mIndex2Func : o.dispatchId.2.mIndex2Func = o.mIndex2Func := by
  unfold dispatchId; split <;> rfl

end Del

section Add

variable {κ F : Type} [DecidableEq κ] (o : CTimer κ F)

@[simp] theorem dropOldCb_lReuseIndex (k : κ) : (o.dropOldCb k).lReuseIndex = o.lReuseIndex := by
  unfold dropOldCb; split <;> [split <;> rfl; rfl]

@[simp] theorem dropOldCb_iDispatchId (k : κ) : (o.dropOldCb k).iDispatchId = o.iDispatchId := by
  unfold dropOldCb; split <;> [split <;> rfl; rfl]

/-- `AddTimeCb` first drops the function the key's entry names, as `DelTimeCb` does. -/
theorem dropOldCb_func (k : κ) (i : Nat) : (o.dropOldCb k).mIndex2Func i = (o.delTimeCb k).mIndex2Func i := by
  rw [delTimeCb_func]
  unfold dropOldCb
  cases h : o.mKey2Index k with
  | none => simp
  | some j =>
    by_cases e : i = j
    · subst e
      cases hf : o.mIndex2Func i <;> simp [hf]
    · by_cases hf : (o.mIndex2Func j).isSome <;> simp [hf, e, Ne.symm e]

/-- Dropping the old callback touches no other key's entry. -/
theorem dropOldCb_index {k k' : κ} (h : k' ≠ k) : (o.dropOldCb k).mKey2Index k' = o.mKey2Index k' := by
  unfold dropOldCb
  split
  · split
    · exact update_of_ne h _ _
    · rfl
  · rfl

theorem addTimeCb_index (k k' : κ) (f : F) :
    (o.addTimeCb k f).2.mKey2Index k' = if k' = k then some (o.addTimeCb k f).1 else o.mKey2Index k' := by
  by_cases h : k' = k
  · subst h; simp [addTimeCb]
  · simp [addTimeCb, h, dropOldCb_index o h]

theorem addTimeCb_func (k : κ) (f : F) (i : Nat) :
    (o.addTimeCb k f).2.mIndex2Func i =
      if i = (o.addTimeCb k f).1 then some f else (o.delTimeCb k).mIndex2Func i := by
  by_cases h : i = (o.addTimeCb k f).1
  · subst h; simp [addTimeCb]
  · rw [if_neg h, ← dropOldCb_func]
    simp only [addTimeCb, dispatchId_mIndex2Func]
    exact update_of_ne h _ _

/-- The id `AddTimeCb` hands to the closure, and what it leaves of the free list and the counter. -/
theorem addTimeCb_cases (k : κ) (f : F) :
    (o.lReuseIndex = (o.addTimeCb k f).2.lReuseIndex ++ [(o.addTimeCb k f).1] ∧
        (o.addTimeCb k f).2.iDispatchId = o.iDispatchId) ∨
      (o.lReuseIndex = [] ∧ (o.addTimeCb k f).2.lReuseIndex = [] ∧
        (o.addTimeCb k f).1 = o.iDispatchId + 1 ∧ (o.addTimeCb k f).2.iDispatchId = o.iDispatchId + 1) := by
  rcases (o.dropOldCb k).dispatchId_cases with ⟨l, hl, hd⟩ | ⟨hl, hi, hd⟩
  · refine Or.inl ⟨?_, ?_⟩
    · simpa [addTimeCb, hd] using hl
    · simp [addTimeCb, hd]
  · rw [dropOldCb_iDispatchId] at hi
    rw [dropOldCb_lReuseIndex] at hl
    refine Or.inr ⟨hl, ?_, hi, ?_⟩
    · simp [addTimeCb, hd, hl]
    · simp [addTimeCb, hd]

end Add

end CTimer

/-! ## The tables and the closures that have not ended -/

section Held

variable {κ F : Type}

/-- How the tables of a `CTimer` stand to the closures `l` that have not ended; `cb n` is the callback of the
`n`-th registration. -/
structure Held (cb : Nat → F) (o : CTimer κ F) (l : List (Timeout κ)) : Prop where
  /-- No id is held twice, nor held and free. -/
  ids : (l.map (·.iCb) ++ o.lReuseIndex).Nodup
  /-- Every id held or free has been dispatched. -/
  le : ∀ i ∈ l.map (·.iCb) ++ o.lReuseIndex, i ≤ o.iDispatchId
  /-- A function is the callback of the closure that holds its id. -/
  func : ∀ i f, o.mIndex2Func i = some f → ∃ t ∈ l, t.iCb = i ∧ f = cb t.reg
  /-- A key entry is the id of a closure of that key. -/
  index : ∀ k i, o.mKey2Index k = some i → ∃ t ∈ l, t.iCb = i ∧ t.sKey = k

namespace Held

variable {cb : Nat → F} {o : CTimer κ F} {l l' : List (Timeout κ)}

theorem perm (h : Held cb o l) (hp : l.Perm l') : Held cb o l' where
  ids := ((hp.map _).append_right _).nodup_iff.1 h.ids
  le := fun i hi => h.le i (((hp.map _).append_right _).mem_iff.2 hi)
  func := fun i f hf => by
    obtain ⟨t, ht, e⟩ := h.func i f hf
    exact ⟨t, hp.mem_iff.1 ht, e⟩
  index := fun k i hk => by
    obtain ⟨t, ht, e⟩ := h.index k i hk
    exact ⟨t, hp.mem_iff.1 ht, e⟩

/-- An id belongs to one closure. -/
theorem iCb_inj (h : Held cb o l) {t u : Timeout κ} (ht : t ∈ l) (hu : u ∈ l) (e : t.iCb = u.iCb) : t = u :=
  List.inj_on_of_nodup_map (List.nodup_append.1 h.ids).1 ht hu e

/-- The function of a closure's id is the closure's own callback. -/
theorem func_own (h : Held cb o l) {t : Timeout κ} (ht : t ∈ l) {f : F} (hf : o.mIndex2Func t.iCb = some f) :
    f = cb t.reg := by
  obtain ⟨u, hu, e, hfu⟩ := h.func _ _ hf
  rw [hfu, h.iCb_inj hu ht e]

/-- The entry of a key that is the id of a closure is of that closure's key. -/
theorem index_own (h : Held cb o l) {t : Timeout κ} (ht : t ∈ l) {k : κ} (hk : o.mKey2Index k = some t.iCb) :
    t.sKey = k := by
  obtain ⟨u, hu, e, hku⟩ := h.index _ _ hk
  rw [← hku, h.iCb_inj hu ht e]

theorem new : Held cb (CTimer.new : CTimer κ F) [] :=
  ⟨by simp [CTimer.new], by simp [CTimer.new], by simp [CTimer.new], by simp [CTimer.new]⟩

theorem release (h : Held cb o l) : Held cb o.release l :=
  ⟨h.ids, h.le, by simp [CTimer.release], by simp [CTimer.release]⟩

theorem delTimeCb (h : Held cb o l) (k : κ) : Held cb (o.delTimeCb k) l where
  ids := by simpa using h.ids
  le := by simpa using h.le
  func := fun i f hf => by
    rw [CTimer.delTimeCb_func] at hf
    split at hf
    · cases hf
    · exact h.func i f hf
  index := by simpa using h.index

variable [DecidableEq κ]

/-- The id of a new closure is neither held nor free any more. -/
theorem addTimeCb_fresh (h : Held cb o l) (k : κ) (f : F) :
    (o.addTimeCb k f).1 ∉ l.map (·.iCb) ++ (o.addTimeCb k f).2.lReuseIndex := by
  intro hmem
  rcases o.addTimeCb_cases k f with ⟨hl, -⟩ | ⟨hl, hl', hi, -⟩
  · have hn := h.ids
    rw [hl, ← List.append_assoc] at hn
    exact (List.nodup_append.1 hn).2.2 _ hmem _ (by simp) rfl
  · rw [hl'] at hmem
    have hle := h.le _ (by rw [hl]; exact hmem)
    omega

theorem addTimeCb (h : Held cb o l) (k : κ) (n due : Nat) :
    Held cb (o.addTimeCb k (cb n)).2 (⟨n, (o.addTimeCb k (cb n)).1, k, due⟩ :: l) where
  ids := by
    have hfresh := h.addTimeCb_fresh k (cb n)
    refine List.nodup_cons.2 ⟨hfresh, ?_⟩
    rcases o.addTimeCb_cases k (cb n) with ⟨hl, -⟩ | ⟨hl, hl', -, -⟩
    · have hn := h.ids
      rw [hl, ← List.append_assoc] at hn
      exact (List.nodup_append.1 hn).1
    · rw [hl', ← hl]; exact h.ids
  le := by
    intro i hi
    rw [List.map_cons, List.cons_append, List.mem_cons] at hi
    rcases o.addTimeCb_cases k (cb n) with ⟨hl, he⟩ | ⟨hl, hl', hd, he⟩
    · rw [he]
      apply h.le i
      rw [hl]
      rcases hi with rfl | hi
      · simp
      · rcases List.mem_append.1 hi with hi | hi
        · exact List.mem_append_left _ hi
        · exact List.mem_append_right _ (List.mem_append_left _ hi)
    · rw [he]
      rcases hi with hi | hi
      · exact Nat.le_of_eq (hi.trans hd)
      · rw [hl', ← hl] at hi
        exact Nat.le_succ_of_le (h.le i hi)
  func := fun i f hf => by
    rw [CTimer.addTimeCb_func] at hf
    split at hf
    · next hi => exact ⟨_, List.mem_cons_self, hi.symm, (Option.some.inj hf).symm⟩
    · obtain ⟨t, ht, e⟩ := (h.delTimeCb k).func i f hf
      exact ⟨t, List.mem_cons_of_mem _ ht, e⟩
  index := fun k' i hk => by
    rw [CTimer.addTimeCb_index] at hk
    split at hk
    · next hkk => exact ⟨_, List.mem_cons_self, Option.some.inj hk, hkk.symm⟩
    · obtain ⟨t, ht, e⟩ := h.index k' i hk
      exact ⟨t, List.mem_cons_of_mem _ ht, e⟩

/-- A closure that ends takes its function and its key's entry with it and frees its id. -/
theorem endTimeCb {t : Timeout κ} (h : Held cb o (t :: l)) : Held cb (o.endTimeCb t.iCb t.sKey) l where
  ids := by
    refine (List.Perm.nodup_iff ?_).1 h.ids
    simp only [List.map_cons, List.cons_append, CTimer.endTimeCb, ← List.append_assoc]
    exact (List.perm_append_singleton _ _).symm
  le := fun i hi => h.le i (by
    simp only [CTimer.endTimeCb, List.mem_append, List.mem_singleton] at hi
    simp only [List.map_cons, List.cons_append, List.mem_cons, List.mem_append]
    tauto)
  func := fun i f hf => by
    obtain ⟨hne, hf⟩ := PMap.update_none_eq_some.1 hf
    obtain ⟨u, hu, e, hfu⟩ := h.func i f hf
    rcases List.mem_cons.1 hu with rfl | hu
    · exact absurd e.symm hne
    · exact ⟨u, hu, e, hfu⟩
  index := fun k i hk => by
    obtain ⟨hne, hk⟩ := PMap.update_none_eq_some.1 hk
    obtain ⟨u, hu, e, hku⟩ := h.index k i hk
    rcases List.mem_cons.1 hu with rfl | hu
    · exact absurd hku.symm hne
    · exact ⟨u, hu, e, hku⟩

end Held

end Held

end RoundGame.Base
