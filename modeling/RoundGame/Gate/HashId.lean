import Mathlib.Data.Int.Bitwise
import Mathlib.Data.List.Nodup
import Mathlib.Logic.Function.Basic

/-!
# `hashid`: from socket ids to slots

`hashid.h` keeps the ids of the open connections in `cap` slots, and finds the slot of an id through the chains of its
buckets. A chain is the list of its slots.

`Wf` says that the chains hold the slots in use, each in the bucket of its id, and no id twice. With it a lookup gives
the slot of an id (`lookup_eq_some`); `hashid_insert` takes a free slot and `hashid_remove` frees one, and both leave
the slots of the other ids alone (`insert_spec`, `remove_spec`).
-/

namespace RoundGame.Gate

open Function

structure HashId where
  hashmod : Nat
  cap : Nat
  count : Nat
  /-- `id[i].id`, with -1 for a free slot. -/
  id : Nat → Int
  hash : Nat → List Nat

namespace HashId

/-- The loop of `hashid_init`, from `hashcap` on. -/
def grow (max : Nat) : Nat → Nat → Nat
  | 0, hashcap => hashcap
  | n + 1, hashcap => if hashcap < max then grow max n (hashcap * 2) else hashcap

def init (max : Nat) : HashId := ⟨grow max max 16 - 1, max, 0, fun _ => -1, fun _ => []⟩

def bucket (hi : HashId) (id : Int) : Nat := (id.land hi.hashmod).toNat

/-- The slot, `none` for -1. -/
def lookup (hi : HashId) (id : Int) : Option Nat := (hi.hash (hi.bucket id)).find? fun c => hi.id c = id

/-- The loop of `hashid_insert`: the first free slot from `id % cap` on. The sum of the two is an `int`. -/
def freeSlot (hi : HashId) (id : Int) : List Nat → Option Nat
  | [] => none
  | i :: is =>
    if 2 ^ 31 ≤ i + id then none
    else
      let index := ((i + id) % hi.cap).toNat
      if hi.id index = -1 then some index else freeSlot hi id is

def insert (hi : HashId) (id : Int) : Option (Nat × HashId) :=
  (hi.freeSlot id (List.range hi.cap)).map fun c =>
    (c, { hi with
      count := hi.count + 1
      id := update hi.id c id
      hash := update hi.hash (hi.bucket id) (c :: hi.hash (hi.bucket id)) })

def remove (hi : HashId) (id : Int) : Option (Nat × HashId) :=
  (hi.lookup id).map fun c =>
    (c, { hi with
      count := hi.count - 1
      id := update hi.id c (-1)
      hash := update hi.hash (hi.bucket id) ((hi.hash (hi.bucket id)).erase c) })

structure Wf (hi : HashId) : Prop where
  chain : ∀ h, ∀ c ∈ hi.hash h, c < hi.cap ∧ hi.id c ≠ -1 ∧ hi.bucket (hi.id c) = h
  mem : ∀ c < hi.cap, hi.id c ≠ -1 → c ∈ hi.hash (hi.bucket (hi.id c))
  inj : ∀ c < hi.cap, ∀ d < hi.cap, hi.id c = hi.id d → hi.id c ≠ -1 → c = d
  nodup : ∀ h, (hi.hash h).Nodup

variable {hi hi' : HashId} {i j : Int} {c : Nat}

theorem wf_init (max : Nat) : (init max).Wf := by
  refine ⟨?_, ?_, ?_, ?_⟩
  · intro h c hc
    cases hc
  · intro c _ hc
    exact absurd rfl hc
  · intro c _ d _ _ hc
    exact absurd rfl hc
  · intro h
    exact List.nodup_nil

theorem lookup_eq_some (hw : hi.Wf) : hi.lookup i = some c ↔ c < hi.cap ∧ hi.id c = i ∧ i ≠ -1 := by
  unfold lookup
  constructor
  · intro h
    have hid := List.find?_some h
    simp only [decide_eq_true_eq] at hid
    obtain ⟨hlt, hne, -⟩ := hw.chain _ c (List.mem_of_find?_eq_some h)
    exact ⟨hlt, hid, hid ▸ hne⟩
  · rintro ⟨hlt, rfl, hne⟩
    have hmem := hw.mem c hlt hne
    cases hf : (hi.hash (hi.bucket (hi.id c))).find? fun d => hi.id d = hi.id c with
    | none =>
      have hno := List.find?_eq_none.1 hf c hmem
      simp at hno
    | some d =>
      have hid := List.find?_some hf
      simp only [decide_eq_true_eq] at hid
      obtain ⟨hd, -, -⟩ := hw.chain _ d (List.mem_of_find?_eq_some hf)
      rw [hw.inj c hlt d hd hid.symm hne]

theorem lookup_eq_none (hw : hi.Wf) (hne : i ≠ -1) : hi.lookup i = none ↔ ∀ c < hi.cap, hi.id c ≠ i := by
  constructor
  · intro h c hc hid
    rw [(lookup_eq_some hw).2 ⟨hc, hid, hne⟩] at h
    cases h
  · intro h
    cases hf : hi.lookup i with
    | none => rfl
    | some c =>
      obtain ⟨hc, hid, -⟩ := (lookup_eq_some hw).1 hf
      exact absurd hid (h c hc)

/-- No two ids share a slot. -/
theorem lookup_inj (hw : hi.Wf) (h : hi.lookup i = some c) (h' : hi.lookup j = some c) : i = j := by
  obtain ⟨-, hi', -⟩ := (lookup_eq_some hw).1 h
  obtain ⟨-, hj', -⟩ := (lookup_eq_some hw).1 h'
  rw [← hi', hj']

theorem freeSlot_free {is : List Nat} (hcap : 0 < hi.cap) (h : hi.freeSlot i is = some c) :
    c < hi.cap ∧ hi.id c = -1 := by
  induction is with
  | nil => cases h
  | cons k is ih =>
    simp only [freeSlot] at h
    split at h
    · cases h
    · split at h
      · rename_i hfree
        cases h
        refine ⟨?_, hfree⟩
        have hpos : (0 : Int) < hi.cap := by omega
        have hlt := Int.emod_lt_of_pos (k + i) hpos
        have hge := Int.emod_nonneg (k + i) (Int.ne_of_gt hpos)
        omega
      · exact ih h

/-- A free slot is given to a new id. -/
theorem Wf.put (hw : hi.Wf) (hlt : c < hi.cap) (hfree : hi.id c = -1) (hne : i ≠ -1)
    (hnone : ∀ d < hi.cap, hi.id d ≠ i) (n : Nat) :
    Wf { hi with
      count := n
      id := update hi.id c i
      hash := update hi.hash (hi.bucket i) (c :: hi.hash (hi.bucket i)) } := by
  have hout : ∀ h, c ∉ hi.hash h := fun h hmem => (hw.chain h c hmem).2.1 hfree
  have hid : ∀ e, e ≠ c → update hi.id c i e = hi.id e := fun e he => update_of_ne he _ _
  refine ⟨?_, ?_, ?_, ?_⟩
  · intro h e he
    by_cases hh : h = hi.bucket i
    · subst hh
      simp only [update_self] at he
      rcases List.mem_cons.1 he with rfl | he
      · refine ⟨hlt, ?_, ?_⟩
        · simpa using hne
        · simp [bucket]
      · have hec : e ≠ c := fun heq => hout _ (heq ▸ he)
        simp only [hid e hec]
        exact hw.chain _ e he
    · simp only [update_of_ne hh] at he
      have hec : e ≠ c := fun heq => hout _ (heq ▸ he)
      simp only [hid e hec]
      exact hw.chain _ e he
  · intro e he hne'
    by_cases hec : e = c
    · subst hec
      simp [bucket]
    · simp only [hid e hec] at hne' ⊢
      have hmem := hw.mem e he hne'
      show e ∈ update hi.hash (hi.bucket i) (c :: hi.hash (hi.bucket i)) (hi.bucket (hi.id e))
      by_cases hb : hi.bucket (hi.id e) = hi.bucket i
      · rw [hb, update_self, ← hb]
        exact List.mem_cons_of_mem _ hmem
      · rw [update_of_ne hb]
        exact hmem
  · intro e he f hf heq hne'
    by_cases hec : e = c
    · subst hec
      by_cases hfc : f = e
      · exact hfc.symm
      · simp only [update_self, hid f hfc] at heq
        exact absurd heq.symm (hnone f hf)
    · by_cases hfc : f = c
      · subst hfc
        simp only [update_self, hid e hec] at heq
        exact absurd heq (hnone e he)
      · simp only [hid e hec, hid f hfc] at heq hne'
        exact hw.inj e he f hf heq hne'
  · intro h
    by_cases hh : h = hi.bucket i
    · subst hh
      simp only [update_self]
      exact List.nodup_cons.2 ⟨hout _, hw.nodup _⟩
    · simp only [update_of_ne hh]
      exact hw.nodup h

/-- A slot is freed. -/
theorem Wf.free (hw : hi.Wf) (hid : hi.id c = i) (n : Nat) :
    Wf { hi with
      count := n
      id := update hi.id c (-1)
      hash := update hi.hash (hi.bucket i) ((hi.hash (hi.bucket i)).erase c) } := by
  have hout : ∀ e, e ≠ c → update hi.id c (-1) e = hi.id e := fun e he => update_of_ne he _ _
  refine ⟨?_, ?_, ?_, ?_⟩
  · intro h e he
    have hmem : e ∈ hi.hash h ∧ e ≠ c := by
      by_cases hh : h = hi.bucket i
      · subst hh
        simp only [update_self] at he
        obtain ⟨hec, he⟩ := (hw.nodup _).mem_erase_iff.1 he
        exact ⟨he, hec⟩
      · simp only [update_of_ne hh] at he
        refine ⟨he, ?_⟩
        rintro rfl
        rw [← (hw.chain _ e he).2.2, hid] at hh
        exact hh rfl
    simp only [hout e hmem.2]
    exact hw.chain h e hmem.1
  · intro e he hne'
    by_cases hec : e = c
    · subst hec
      simp at hne'
    · simp only [hout e hec] at hne' ⊢
      have hmem := hw.mem e he hne'
      show e ∈ update hi.hash (hi.bucket i) ((hi.hash (hi.bucket i)).erase c) (hi.bucket (hi.id e))
      by_cases hb : hi.bucket (hi.id e) = hi.bucket i
      · rw [hb, update_self, ← hb]
        exact (List.mem_erase_of_ne hec).2 hmem
      · rw [update_of_ne hb]
        exact hmem
  · intro e he f hf heq hne'
    by_cases hec : e = c
    · subst hec
      simp at hne'
    · simp only [hout e hec] at heq hne'
      by_cases hfc : f = c
      · subst hfc
        simp only [update_self] at heq
        exact absurd heq hne'
      · simp only [hout f hfc] at heq
        exact hw.inj e he f hf heq hne'
  · intro h
    by_cases hh : h = hi.bucket i
    · subst hh
      simp only [update_self]
      exact (hw.nodup _).erase c
    · simp only [update_of_ne hh]
      exact hw.nodup h

/-- A lookup sees only which slots have the id. -/
theorem lookup_congr (hw : hi.Wf) (hw' : hi'.Wf) (hcap : hi'.cap = hi.cap)
    (hid : j ≠ -1 → ∀ c, hi'.id c = j ↔ hi.id c = j) : hi'.lookup j = hi.lookup j := by
  apply Option.ext
  intro c
  show _ = some c ↔ _ = some c
  rw [lookup_eq_some hw', lookup_eq_some hw, hcap]
  constructor
  · rintro ⟨hlt, heq, hne⟩
    exact ⟨hlt, (hid hne c).1 heq, hne⟩
  · rintro ⟨hlt, heq, hne⟩
    exact ⟨hlt, (hid hne c).2 heq, hne⟩

theorem insert_spec (hw : hi.Wf) (hne : i ≠ -1) (hnew : hi.lookup i = none) (h : hi.insert i = some (c, hi')) :
    hi'.Wf ∧ hi'.lookup i = some c ∧ (∀ j, hi.lookup j ≠ some c) ∧
      ∀ j, j ≠ i → hi'.lookup j = hi.lookup j := by
  obtain ⟨d, hd, heq⟩ := Option.map_eq_some_iff.1 h
  obtain ⟨rfl, rfl⟩ := Prod.mk.inj heq
  have hcap : 0 < hi.cap := by
    rcases Nat.eq_zero_or_pos hi.cap with hz | hpos
    · rw [hz] at hd
      cases hd
    · exact hpos
  obtain ⟨hlt, hfree⟩ := freeSlot_free hcap hd
  have hw' := hw.put hlt hfree hne ((lookup_eq_none hw hne).1 hnew) (hi.count + 1)
  refine ⟨hw', (lookup_eq_some hw').2 ⟨hlt, by simp, hne⟩, ?_, ?_⟩
  · intro j hj
    obtain ⟨-, hid, hj'⟩ := (lookup_eq_some hw).1 hj
    exact hj' (hid.symm.trans hfree)
  · intro j hj
    refine lookup_congr hw hw' rfl fun hj' e => ?_
    by_cases hed : e = d
    · subst hed
      simp only [update_self, hfree]
      exact ⟨fun heq => absurd heq.symm hj, fun heq => absurd heq.symm hj'⟩
    · simp only [update_of_ne hed]

theorem remove_spec (hw : hi.Wf) (h : hi.remove i = some (c, hi')) :
    hi'.Wf ∧ hi.lookup i = some c ∧ hi'.lookup i = none ∧ ∀ j, j ≠ i → hi'.lookup j = hi.lookup j := by
  obtain ⟨d, hd, heq⟩ := Option.map_eq_some_iff.1 h
  obtain ⟨rfl, rfl⟩ := Prod.mk.inj heq
  obtain ⟨hlt, hid, hne⟩ := (lookup_eq_some hw).1 hd
  have hw' := hw.free hid (hi.count - 1)
  refine ⟨hw', hd, (lookup_eq_none hw' hne).2 ?_, ?_⟩
  · intro e he heq
    by_cases hed : e = d
    · subst hed
      simp only [update_self] at heq
      exact hne heq.symm
    · simp only [update_of_ne hed] at heq
      exact hed (hw.inj e he d hlt (heq.trans hid.symm) (heq ▸ hne))
  · intro j hj
    refine lookup_congr hw hw' rfl fun hj' e => ?_
    by_cases hed : e = d
    · subst hed
      simp only [update_self, hid]
      exact ⟨fun heq => absurd heq.symm hj', fun heq => absurd heq.symm hj⟩
    · simp only [update_of_ne hed]

end HashId

end RoundGame.Gate
