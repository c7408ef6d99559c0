import Mathlib.Data.Nat.Bitwise
import Mathlib.Logic.Function.Basic
import Mathlib.Tactic.Linarith

/-!
# Handles of services

`skynet_handle.c` keeps the contexts of the services in a table of slots, each in the slot that the low bits of its
handle name. A new context takes the first free slot from `handle_index` on, and when there is none the table is
doubled. The high byte of a handle is the harbor.

`Wf` says that every context stands in the slot of its handle. Then the table is the map `grab` from handles to
contexts: a registration adds a handle that was not there (`register_spec`), a retirement deletes one (`retire_spec`).
The table refuses a context only when it is full and cannot grow (`register_eq_none`), and as long as the index does not
come round every handle is new (`register_fresh`).

A context is registered together with the assignment of its handle; in the code the assignment follows. A slot holds
the context and its handle.
-/

namespace RoundGame.Skynet

open Function

def HANDLE_MASK : Nat := 0xffffff

def HANDLE_REMOTE_SHIFT : Nat := 24

def DEFAULT_SLOT_SIZE : Nat := 4

def MAX_SLOT_SIZE : Nat := 0x40000000

/-- A name, without the zero byte at its end. -/
abbrev Name := List UInt8

structure HandleStorage (κ : Type) where
  harbor : Nat
  handle_index : Nat
  slot : List (Option (Nat × κ))
  name_cap : Nat
  name : List (Name × Nat)

namespace HandleStorage

variable {κ : Type}

def init (harbor : Nat) : HandleStorage κ :=
  { harbor := (harbor &&& 0xff) <<< HANDLE_REMOTE_SHIFT
    handle_index := 1
    slot := List.replicate DEFAULT_SLOT_SIZE none
    name_cap := 2
    name := [] }

/-- The slot of a handle: `handle & (slot_size-1)`. -/
def hash (slot : List (Option (Nat × κ))) (handle : Nat) : Nat := handle &&& (slot.length - 1)

/-- The loop of `skynet_handle_register` over the slots: the first handle whose slot is free. -/
def probe (s : HandleStorage κ) : List Nat → Option Nat
  | [] => none
  | i :: is =>
    let handle := (i + s.handle_index) &&& HANDLE_MASK
    match s.slot[hash s.slot handle]? with
    | some none => some handle
    | _ => probe s is

/-- The loop that fills the new slots, `none` where the assertion fails or an old slot is empty. -/
def refill : List (Option (Nat × κ)) → List (Option (Nat × κ)) → Option (List (Option (Nat × κ)))
  | [], new => some new
  | none :: _, _ => none
  | some (handle, ctx) :: slot, new =>
    match new[hash new handle]? with
    | some none => refill slot (new.set (hash new handle) (some (handle, ctx)))
    | _ => none

/-- The outer loop of `skynet_handle_register`, with at most `n` turns; `none` where an assertion fails. -/
def registerLoop (ctx : κ) : Nat → HandleStorage κ → Option (Nat × HandleStorage κ)
  | 0, _ => none
  | n + 1, s =>
    match s.probe (List.range s.slot.length) with
    | some handle =>
      some (handle ||| s.harbor,
        { s with
          slot := s.slot.set (hash s.slot handle) (some (handle ||| s.harbor, ctx))
          handle_index := handle + 1 })
    | none =>
      if s.slot.length * 2 - 1 ≤ HANDLE_MASK then
        (refill s.slot (List.replicate (s.slot.length * 2) none)).bind fun new =>
          registerLoop ctx n { s with slot := new }
      else none

/-- A table that was doubled has a free slot, so there is no third turn. -/
def register (s : HandleStorage κ) (ctx : κ) : Option (Nat × HandleStorage κ) := registerLoop ctx 2 s

def grab (s : HandleStorage κ) (handle : Nat) : Option κ :=
  match s.slot[hash s.slot handle]? with
  | some (some (h, ctx)) => if h = handle then some ctx else none
  | _ => none

/-- `skynet_handle_retire`: the context to be released. Its names go with it. -/
def retire (s : HandleStorage κ) (handle : Nat) : Option κ × HandleStorage κ :=
  match s.grab handle with
  | some ctx =>
    (some ctx, { s with
      slot := s.slot.set (hash s.slot handle) none
      name := s.name.filter fun n => n.2 ≠ handle })
  | none => (none, s)

/-! ## The invariant -/

/-- Every context stands in the slot of its handle, and the size of the table is a power of two. -/
structure Wf (s : HandleStorage κ) : Prop where
  size : ∃ k, k ≤ 24 ∧ s.slot.length = 2 ^ k
  placed : ∀ (i h : Nat) (c : κ), s.slot[i]? = some (some (h, c)) → h % s.slot.length = i
  tagged : ∀ (i h : Nat) (c : κ), s.slot[i]? = some (some (h, c)) → h / 2 ^ 24 * 2 ^ 24 = s.harbor
  harbor : s.harbor % 2 ^ 24 = 0
  index : s.handle_index ≤ 2 ^ 24

variable {s s' : HandleStorage κ} {slot new slot' : List (Option (Nat × κ))} {k h handle : Nat} {ctx c : κ}

theorem hash_eq (hk : slot.length = 2 ^ k) (handle : Nat) : hash slot handle = handle % slot.length := by
  rw [hash, hk, Nat.and_two_pow_sub_one_eq_mod]

theorem and_mask (n : Nat) : n &&& HANDLE_MASK = n % 2 ^ 24 := Nat.and_two_pow_sub_one_eq_mod n 24

/-- The harbor bits stand above those of the handle. -/
theorem or_harbor (hs : s.Wf) (hh : handle < 2 ^ 24) : handle ||| s.harbor = s.harbor + handle := by
  obtain ⟨q, hq⟩ := Nat.dvd_of_mod_eq_zero hs.harbor
  rw [hq, Nat.lor_comm, Nat.two_pow_add_eq_or_of_lt hh]

theorem Wf.pos (hs : s.Wf) : 0 < s.slot.length := by
  obtain ⟨k, _, hk⟩ := hs.size
  rw [hk]
  exact Nat.two_pow_pos k

theorem Wf.dvd (hs : s.Wf) : s.slot.length ∣ 2 ^ 24 := by
  obtain ⟨k, hk, hlen⟩ := hs.size
  rw [hlen]
  exact Nat.pow_dvd_pow 2 hk

theorem Wf.hash_lt (hs : s.Wf) (handle : Nat) : hash s.slot handle < s.slot.length := by
  obtain ⟨k, _, hk⟩ := hs.size
  rw [hash_eq hk]
  exact Nat.mod_lt _ hs.pos

theorem Wf.hash_or (hs : s.Wf) (hh : handle < 2 ^ 24) : hash s.slot (handle ||| s.harbor) = hash s.slot handle := by
  obtain ⟨k, hk, hlen⟩ := hs.size
  have hdvd : s.slot.length ∣ s.harbor := hs.dvd.trans (Nat.dvd_of_mod_eq_zero hs.harbor)
  rw [or_harbor hs hh, hash_eq hlen, hash_eq hlen, Nat.add_mod, Nat.mod_eq_zero_of_dvd hdvd, Nat.zero_add, Nat.mod_mod]

theorem wf_init (harbor : Nat) : (init harbor : HandleStorage κ).Wf := by
  have hempty : ∀ (i h : Nat) (c : κ),
      (List.replicate DEFAULT_SLOT_SIZE (none : Option (Nat × κ)))[i]? ≠ some (some (h, c)) := by
    intro i h c hget
    have hmem := List.mem_of_getElem? hget
    have hnone := List.eq_of_mem_replicate hmem
    cases hnone
  refine ⟨⟨2, by decide, rfl⟩, ?_, ?_, ?_, Nat.le_of_ble_eq_true rfl⟩
  · exact fun i h c hget => absurd hget (hempty i h c)
  · exact fun i h c hget => absurd hget (hempty i h c)
  · rw [init, Nat.shiftLeft_eq]
    exact Nat.mul_mod_left _ _

/-! ## Looking up a handle -/

theorem grab_eq_some_iff (hs : s.Wf) : s.grab h = some c ↔ ∃ i : Nat, s.slot[i]? = some (some (h, c)) := by
  obtain ⟨k, _, hk⟩ := hs.size
  constructor
  · intro hg
    rw [grab] at hg
    split at hg
    · rename_i h' c' hget
      split at hg
      · rename_i heq
        subst heq
        cases hg
        exact ⟨_, hget⟩
      · cases hg
    · cases hg
  · rintro ⟨i, hget⟩
    have hi := hs.placed i h c hget
    rw [grab, hash_eq hk, hi, hget]
    exact if_pos rfl

/-- The harbor of a handle in the table is the one of the table. -/
theorem tagged_of_grab (hs : s.Wf) (hg : s.grab h = some c) : h / 2 ^ 24 * 2 ^ 24 = s.harbor := by
  obtain ⟨i, hi⟩ := (grab_eq_some_iff hs).1 hg
  exact hs.tagged i h c hi

theorem retire_eq (s : HandleStorage κ) (handle : Nat) : (s.retire handle).1 = s.grab handle := by
  rw [retire]
  split
  · rename_i hg
    exact hg.symm
  · rename_i hg
    exact hg.symm

@[simp] theorem retire_handle_index (s : HandleStorage κ) (handle : Nat) :
    (s.retire handle).2.handle_index = s.handle_index := by
  rw [retire]
  split <;> rfl

@[simp] theorem retire_slot_length (s : HandleStorage κ) (handle : Nat) :
    (s.retire handle).2.slot.length = s.slot.length := by
  rw [retire]
  split
  · exact List.length_set
  · rfl

@[simp] theorem retire_harbor (s : HandleStorage κ) (handle : Nat) : (s.retire handle).2.harbor = s.harbor := by
  rw [retire]
  split <;> rfl

theorem mem_slot_set {i j : Nat} {e : Option (Nat × κ)} (hget : (slot.set i e)[j]? = some (some (h, c))) :
    (j = i ∧ e = some (h, c)) ∨ (j ≠ i ∧ slot[j]? = some (some (h, c))) := by
  rw [List.getElem?_set] at hget
  split at hget
  · rename_i hij
    split at hget
    · exact Or.inl ⟨hij.symm, Option.some.inj hget⟩
    · cases hget
  · rename_i hij
    exact Or.inr ⟨Ne.symm hij, hget⟩

theorem wf_retire (hs : s.Wf) (handle : Nat) : (s.retire handle).2.Wf := by
  have hslot : ∀ (i h : Nat) (c : κ), (s.retire handle).2.slot[i]? = some (some (h, c)) →
      s.slot[i]? = some (some (h, c)) := by
    intro i h c hget
    rw [retire] at hget
    split at hget
    · rcases mem_slot_set hget with ⟨_, hno⟩ | ⟨_, hold⟩
      · cases hno
      · exact hold
    · exact hget
  refine ⟨by simpa using hs.size, ?_, ?_, by simpa using hs.harbor, by simpa using hs.index⟩
  · intro i h c hget
    rw [retire_slot_length]
    exact hs.placed i h c (hslot i h c hget)
  · intro i h c hget
    rw [retire_harbor]
    exact hs.tagged i h c (hslot i h c hget)

/-- A retirement deletes the handle. -/
theorem retire_spec (hs : s.Wf) (handle : Nat) : (s.retire handle).2.grab = update s.grab handle none := by
  obtain ⟨k, _, hk⟩ := hs.size
  funext h
  apply Option.ext
  intro c
  have hs' := wf_retire hs handle
  rw [grab_eq_some_iff hs']
  by_cases hh : h = handle
  · subst hh
    rw [update_self]
    refine iff_of_false ?_ nofun
    rintro ⟨i, hget⟩
    have hi := hs'.placed i h c hget
    rw [retire_slot_length] at hi
    rw [retire] at hget
    split at hget
    · rcases mem_slot_set hget with ⟨_, hno⟩ | ⟨hne, _⟩
      · cases hno
      · exact hne (by rw [hash_eq hk, hi])
    · rename_i hnone
      have hsome := (grab_eq_some_iff hs).2 ⟨i, hget⟩
      rw [hnone] at hsome
      cases hsome
  · rw [update_of_ne hh, grab_eq_some_iff hs]
    refine exists_congr fun i => ?_
    rw [retire]
    split
    · rename_i ctx hg
      constructor
      · intro hget
        rcases mem_slot_set hget with ⟨_, hno⟩ | ⟨_, hold⟩
        · cases hno
        · exact hold
      · intro hget
        obtain ⟨j, hj⟩ := (grab_eq_some_iff hs).1 hg
        have hj' := hs.placed j handle ctx hj
        have hne : hash s.slot handle ≠ i := by
          rw [hash_eq hk, hj']
          rintro rfl
          rw [hget] at hj
          cases hj
          exact hh rfl
        rw [List.getElem?_set_ne hne]
        exact hget
    · exact Iff.rfl

/-! ## A new handle -/

theorem probe_eq_some {is : List Nat} (hp : s.probe is = some handle) :
    (∃ i ∈ is, handle = (i + s.handle_index) % 2 ^ 24) ∧ s.slot[hash s.slot handle]? = some none := by
  induction is with
  | nil => cases hp
  | cons i is ih =>
    rw [probe] at hp
    split at hp
    · rename_i hfree
      cases hp
      exact ⟨⟨i, List.mem_cons_self, and_mask _⟩, hfree⟩
    · obtain ⟨⟨j, hj, hjeq⟩, hfree⟩ := ih hp
      exact ⟨⟨j, List.mem_cons_of_mem i hj, hjeq⟩, hfree⟩

theorem probe_eq_none {is : List Nat} (hp : s.probe is = none) :
    ∀ i ∈ is, s.slot[hash s.slot ((i + s.handle_index) % 2 ^ 24)]? ≠ some none := by
  induction is with
  | nil =>
    intro i hi
    cases hi
  | cons i is ih =>
    rw [probe] at hp
    split at hp
    · cases hp
    · rename_i hused
      rw [and_mask] at hused
      intro j hj
      rcases List.mem_cons.1 hj with rfl | hj
      · exact hused
      · exact ih hp j hj

/-- Going round a circle of `n` places from `a`, the place `j` is met. -/
theorem exists_turn {n j : Nat} (hj : j < n) (a : Nat) : ∃ i < n, (i + a) % n = j := by
  have hr : a % n < n := Nat.mod_lt a (Nat.zero_lt_of_lt hj)
  refine ⟨(j + (n - a % n)) % n, Nat.mod_lt _ (Nat.zero_lt_of_lt hj), ?_⟩
  have hsum : j + (n - a % n) + a = j + n * (a / n + 1) := by
    have ha := Nat.mod_add_div a n
    rw [Nat.mul_add, Nat.mul_one]
    omega
  rw [Nat.mod_add_mod, hsum, Nat.add_mul_mod_self_left, Nat.mod_eq_of_lt hj]

/-- The loop over the slots comes to each of them. -/
theorem full_of_probe (hs : s.Wf) (hp : s.probe (List.range s.slot.length) = none) : none ∉ s.slot := by
  obtain ⟨k, _, hk⟩ := hs.size
  intro he
  obtain ⟨j, hj⟩ := List.mem_iff_getElem?.1 he
  obtain ⟨i, hi, hsum⟩ := exists_turn (List.getElem?_eq_some_iff.1 hj).1 s.handle_index
  have hused := probe_eq_none hp i (List.mem_range.2 hi)
  rw [hash_eq hk, Nat.mod_mod_of_dvd _ hs.dvd, hsum] at hused
  exact hused hj

theorem length_refill (hr : refill slot new = some slot') : slot'.length = new.length := by
  induction slot generalizing new with
  | nil =>
    cases hr
    rfl
  | cons e slot ih =>
    cases e with
    | none => cases hr
    | some e =>
      rw [refill] at hr
      split at hr
      · rw [ih hr, List.length_set]
      · cases hr

/-- Every context takes one free slot. -/
theorem countP_refill (hr : refill slot new = some slot') :
    slot'.countP Option.isNone + slot.length = new.countP Option.isNone := by
  induction slot generalizing new with
  | nil =>
    cases hr
    rfl
  | cons e slot ih =>
    cases e with
    | none => cases hr
    | some e =>
      rw [refill] at hr
      split at hr
      · rename_i hfree
        obtain ⟨hlt, hget⟩ := List.getElem?_eq_some_iff.1 hfree
        have hpos : 0 < new.countP Option.isNone :=
          List.countP_pos_iff.2 ⟨none, List.mem_of_getElem? hfree, rfl⟩
        have hset := ih hr
        rw [List.countP_set hlt, hget] at hset
        rw [List.length_cons]
        simp only [Option.isNone_none, Option.isNone_some, if_true, Bool.false_eq_true, if_false] at hset
        omega
      · cases hr

/-- What is in the new slots: what was there, and the contexts of the old ones, each where its handle says. -/
theorem refill_spec (hk : new.length = 2 ^ k) (hr : refill slot new = some slot') {i : Nat} :
    slot'[i]? = some (some (h, c)) ↔
      new[i]? = some (some (h, c)) ∨ (some (h, c) ∈ slot ∧ h % new.length = i) := by
  induction slot generalizing new with
  | nil =>
    cases hr
    simp
  | cons e slot ih =>
    cases e with
    | none => cases hr
    | some e =>
      obtain ⟨h', c'⟩ := e
      rw [refill] at hr
      split at hr
      · rename_i hfree
        rw [ih (by rw [List.length_set]; exact hk) hr, List.length_set, List.mem_cons, List.getElem?_set]
        have hlt := (List.getElem?_eq_some_iff.1 hfree).1
        rw [hash_eq hk] at hfree hlt ⊢
        by_cases hi : h' % new.length = i
        · subst hi
          simp only [if_true, hlt, Option.some.injEq, Prod.mk.injEq]
          constructor
          · rintro (⟨rfl, rfl⟩ | ⟨hmem, hh⟩)
            · exact Or.inr ⟨Or.inl ⟨rfl, rfl⟩, rfl⟩
            · exact Or.inr ⟨Or.inr hmem, hh⟩
          · rintro (hold | ⟨⟨rfl, rfl⟩ | hmem, hh⟩)
            · rw [hfree] at hold
              cases hold
            · exact Or.inl ⟨rfl, rfl⟩
            · exact Or.inr ⟨hmem, hh⟩
        · rw [if_neg hi]
          constructor
          · rintro (hold | ⟨hmem, hh⟩)
            · exact Or.inl hold
            · exact Or.inr ⟨Or.inr hmem, hh⟩
          · rintro (hold | ⟨heq | hmem, hh⟩)
            · exact Or.inl hold
            · cases heq
              exact absurd hh hi
            · exact Or.inr ⟨hmem, hh⟩
      · cases hr

/-- The contexts of full slots go to different places, so the assertion holds. -/
theorem refill_isSome (hk : new.length = 2 ^ k) (hfull : none ∉ slot)
    (hfree : ∀ h c, some (h, c) ∈ slot → new[h % new.length]? = some none)
    (hne : slot.Pairwise fun d e => ∀ h c h' c', d = some (h, c) → e = some (h', c') →
      h % new.length ≠ h' % new.length) : (refill slot new).isSome := by
  induction slot generalizing new with
  | nil => rfl
  | cons e slot ih =>
    rw [List.pairwise_cons] at hne
    cases e with
    | none => exact absurd List.mem_cons_self hfull
    | some e =>
      obtain ⟨h, c⟩ := e
      have hhere := hfree h c List.mem_cons_self
      rw [refill, hash_eq hk, hhere]
      apply ih
      · rw [List.length_set]
        exact hk
      · exact fun hmem => hfull (List.mem_cons_of_mem _ hmem)
      · intro h' c' hmem
        have hother : h % new.length ≠ h' % new.length := hne.1 _ hmem h c h' c' rfl rfl
        rw [List.length_set, List.getElem?_set_ne hother]
        exact hfree h' c' (List.mem_cons_of_mem _ hmem)
      · rw [List.length_set]
        exact hne.2

/-- The table with twice the slots. -/
theorem grow_spec (hs : s.Wf) (hfull : none ∉ s.slot) (hle : s.slot.length * 2 - 1 ≤ HANDLE_MASK) :
    ∃ new, refill s.slot (List.replicate (s.slot.length * 2) none) = some new ∧
      new.length = s.slot.length * 2 ∧ none ∈ new ∧ ({ s with slot := new } : HandleStorage κ).Wf ∧
      ({ s with slot := new } : HandleStorage κ).grab = s.grab := by
  obtain ⟨k, hk, hlen⟩ := hs.size
  have hpow : s.slot.length * 2 = 2 ^ (k + 1) := by rw [hlen, Nat.pow_succ]
  have hk' : k + 1 ≤ 24 := by
    by_contra hgt
    have hk24 : k = 24 := by omega
    rw [hlen, hk24] at hle
    exact absurd hle (by decide)
  have hnewlen : (List.replicate (s.slot.length * 2) (none : Option (Nat × κ))).length = 2 ^ (k + 1) := by
    rw [List.length_replicate, hpow]
  have hempty : ∀ (i : Nat) (e : Nat × κ),
      (List.replicate (s.slot.length * 2) (none : Option (Nat × κ)))[i]? ≠ some (some e) := by
    intro i e hget
    have hnone := List.eq_of_mem_replicate (List.mem_of_getElem? hget)
    cases hnone
  -- handles in different old slots differ already in the bits that the old size names
  have hdvd : s.slot.length ∣ s.slot.length * 2 := Nat.dvd_mul_right _ _
  have hsome : (refill s.slot (List.replicate (s.slot.length * 2) none)).isSome := by
    apply refill_isSome hnewlen hfull
    · intro h c _
      rw [List.length_replicate, List.getElem?_replicate, if_pos]
      exact Nat.mod_lt _ (by have := hs.pos; omega)
    · rw [List.pairwise_iff_getElem]
      intro i j hi hj hij h c h' c' hd he
      rw [List.length_replicate]
      intro hmod
      have hi' := hs.placed i h c (by rw [List.getElem?_eq_getElem hi, hd])
      have hj' := hs.placed j h' c' (by rw [List.getElem?_eq_getElem hj, he])
      rw [← Nat.mod_mod_of_dvd h hdvd, hmod, Nat.mod_mod_of_dvd h' hdvd, hj'] at hi'
      omega
  obtain ⟨new, hnew⟩ := Option.isSome_iff_exists.1 hsome
  have hlen' : new.length = s.slot.length * 2 := by rw [length_refill hnew, List.length_replicate]
  have hmem : ∀ {i h c}, new[i]? = some (some (h, c)) ↔ some (h, c) ∈ s.slot ∧ h % new.length = i := by
    intro i h c
    rw [refill_spec hnewlen hnew, List.length_replicate, hlen']
    exact or_iff_right (hempty i (h, c))
  have hwf : ({ s with slot := new } : HandleStorage κ).Wf := by
    refine ⟨⟨k + 1, hk', by rw [hlen', hpow]⟩, fun i h c hget => (hmem.1 hget).2, ?_, hs.harbor, hs.index⟩
    intro i h c hget
    obtain ⟨j, hj⟩ := List.mem_iff_getElem?.1 (hmem.1 hget).1
    exact hs.tagged j h c hj
  have hfree : none ∈ new := by
    have hcount := countP_refill hnew
    rw [List.countP_replicate, if_pos Option.isNone_none] at hcount
    have hpos : 0 < new.countP Option.isNone := by
      have hslots := hs.pos
      omega
    obtain ⟨e, he, hnone⟩ := List.countP_pos_iff.1 hpos
    rwa [Option.isNone_iff_eq_none.1 hnone] at he
  refine ⟨new, hnew, hlen', hfree, hwf, ?_⟩
  funext h
  apply Option.ext
  intro c
  rw [grab_eq_some_iff hwf, grab_eq_some_iff hs]
  constructor
  · rintro ⟨i, hi⟩
    exact List.mem_iff_getElem?.1 (hmem.1 hi).1
  · rintro ⟨i, hi⟩
    exact ⟨_, hmem.2 ⟨List.mem_iff_getElem?.2 ⟨i, hi⟩, rfl⟩⟩

/-- What a registration in a table with a free slot leaves. -/
structure Registered (s : HandleStorage κ) (ctx : κ) (h : Nat) (s' : HandleStorage κ) : Prop where
  wf : s'.Wf
  free : s.grab h = none
  grab : s'.grab = update s.grab h (some ctx)
  index : s'.handle_index = h % 2 ^ 24 + 1
  harbor : s'.harbor = s.harbor
  names : s'.name = s.name
  cap : s'.name_cap = s.name_cap

theorem registered_of_probe (ctx : κ) (hs : s.Wf) {is : List Nat} (hp : s.probe is = some handle) :
    Registered s ctx (handle ||| s.harbor) { s with
      slot := s.slot.set (hash s.slot handle) (some (handle ||| s.harbor, ctx))
      handle_index := handle + 1 } := by
  obtain ⟨⟨j, _, hj⟩, hfree⟩ := probe_eq_some hp
  have hlt : handle < 2 ^ 24 := by
    rw [hj]
    exact Nat.mod_lt _ (Nat.two_pow_pos 24)
  obtain ⟨k, hk, hlen⟩ := hs.size
  have hhash : (handle ||| s.harbor) % s.slot.length = hash s.slot handle := by
    rw [← hash_eq hlen, hs.hash_or hlt]
  have hlow : (handle ||| s.harbor) % 2 ^ 24 = handle := by
    rw [or_harbor hs hlt, Nat.add_mod, hs.harbor, Nat.zero_add, Nat.mod_mod, Nat.mod_eq_of_lt hlt]
  have htag : (handle ||| s.harbor) / 2 ^ 24 * 2 ^ 24 = s.harbor := by
    have hdiv := Nat.div_add_mod (handle ||| s.harbor) (2 ^ 24)
    rw [hlow, or_harbor hs hlt] at hdiv
    rw [or_harbor hs hlt]
    omega
  have hnone : s.grab (handle ||| s.harbor) = none := by
    rw [HandleStorage.grab, hs.hash_or hlt, hfree]
  have hwf : ({ s with
      slot := s.slot.set (hash s.slot handle) (some (handle ||| s.harbor, ctx))
      handle_index := handle + 1 } : HandleStorage κ).Wf := by
    refine ⟨⟨k, hk, by rw [List.length_set, hlen]⟩, ?_, ?_, hs.harbor, Nat.succ_le_of_lt hlt⟩
    · intro i h c hget
      rw [List.length_set]
      rcases mem_slot_set hget with ⟨hi, heq⟩ | ⟨_, hold⟩
      · cases heq
        rw [hhash, hi]
      · exact hs.placed i h c hold
    · intro i h c hget
      rcases mem_slot_set hget with ⟨hi, heq⟩ | ⟨_, hold⟩
      · cases heq
        exact htag
      · exact hs.tagged i h c hold
  refine ⟨hwf, hnone, ?_, by rw [hlow], rfl, rfl, rfl⟩
  funext h
  apply Option.ext
  intro c
  rw [grab_eq_some_iff hwf]
  by_cases hh : h = handle ||| s.harbor
  · subst hh
    rw [update_self, Option.some.injEq]
    constructor
    · rintro ⟨i, hget⟩
      rcases mem_slot_set hget with ⟨_, heq⟩ | ⟨hne, hold⟩
      · cases heq
        rfl
      · have hplace := hs.placed i _ c hold
        rw [hhash] at hplace
        exact absurd hplace.symm hne
    · rintro rfl
      refine ⟨hash s.slot handle, ?_⟩
      rw [List.getElem?_set_self (hs.hash_lt handle)]
  · rw [update_of_ne hh, grab_eq_some_iff hs]
    refine exists_congr fun i => ⟨?_, ?_⟩
    · intro hget
      rcases mem_slot_set hget with ⟨_, heq⟩ | ⟨_, hold⟩
      · cases heq
        exact absurd rfl hh
      · exact hold
    · intro hget
      have hne : hash s.slot handle ≠ i := by
        rintro rfl
        rw [hget] at hfree
        cases hfree
      rw [List.getElem?_set_ne hne]
      exact hget

/-- The first turn of the loop, or the second after the table was doubled. -/
theorem register_cases (ctx : κ) (hs : s.Wf) :
    (∃ handle, s.probe (List.range s.slot.length) = some handle ∧
      s.register ctx = some (handle ||| s.harbor, { s with
        slot := s.slot.set (hash s.slot handle) (some (handle ||| s.harbor, ctx))
        handle_index := handle + 1 })) ∨
    (∃ new handle, new.length = s.slot.length * 2 ∧ ({ s with slot := new } : HandleStorage κ).Wf ∧
      ({ s with slot := new } : HandleStorage κ).grab = s.grab ∧
      ({ s with slot := new } : HandleStorage κ).probe (List.range new.length) = some handle ∧
      s.register ctx = some (handle ||| s.harbor, { s with
        slot := new.set (hash new handle) (some (handle ||| s.harbor, ctx))
        handle_index := handle + 1 })) ∨
    (none ∉ s.slot ∧ s.slot.length = 2 ^ 24 ∧ s.register ctx = none) := by
  cases hp : s.probe (List.range s.slot.length) with
  | some handle =>
    refine Or.inl ⟨handle, rfl, ?_⟩
    simp only [register, registerLoop, hp]
  | none =>
    have hfull := full_of_probe hs hp
    refine Or.inr ?_
    by_cases hle : s.slot.length * 2 - 1 ≤ HANDLE_MASK
    · obtain ⟨new, hnew, hlen, hfree, hwf, hgrab⟩ := grow_spec hs hfull hle
      cases hp' : ({ s with slot := new } : HandleStorage κ).probe (List.range new.length) with
      | some handle =>
        refine Or.inl ⟨new, handle, hlen, hwf, hgrab, hp', ?_⟩
        simp only [register, registerLoop, hp, if_pos hle, hnew, Option.bind_some, hp']
      | none => exact absurd hfree (full_of_probe hwf hp')
    · refine Or.inr ⟨hfull, ?_, by simp only [register, registerLoop, hp, if_neg hle]⟩
      obtain ⟨k, hk, hlen⟩ := hs.size
      rcases Nat.eq_or_lt_of_le hk with rfl | hlt
      · exact hlen
      · have hpow : s.slot.length ≤ 2 ^ 23 := by
          rw [hlen]
          exact Nat.pow_le_pow_right (by decide) (Nat.le_of_lt_succ hlt)
        rw [HANDLE_MASK] at hle
        omega

/-- A registration adds a handle that was not in the table. -/
theorem register_spec (hs : s.Wf) (hr : s.register ctx = some (h, s')) : Registered s ctx h s' := by
  rcases register_cases ctx hs with ⟨handle, hp, heq⟩ | ⟨new, handle, _, hwf, hgrab, hp, heq⟩ | ⟨_, _, heq⟩
  · rw [heq] at hr
    cases hr
    exact registered_of_probe ctx hs hp
  · rw [heq] at hr
    cases hr
    have hreg := registered_of_probe ctx hwf hp
    exact ⟨hreg.wf, hgrab ▸ hreg.free, hgrab ▸ hreg.grab, hreg.index, rfl, rfl, rfl⟩
  · rw [heq] at hr
    cases hr

/-- A context is refused when the table has all its 2^24 slots and none of them is free. -/
theorem register_eq_none (hs : s.Wf) :
    s.register ctx = none ↔ s.slot.length = 2 ^ 24 ∧ none ∉ s.slot := by
  constructor
  · intro hr
    rcases register_cases ctx hs with ⟨handle, _, heq⟩ | ⟨_, _, _, _, _, _, heq⟩ | ⟨hfull, hlen, _⟩
    · rw [hr] at heq
      cases heq
    · rw [hr] at heq
      cases heq
    · exact ⟨hlen, hfull⟩
  · rintro ⟨hlen, hfull⟩
    rcases register_cases ctx hs with ⟨handle, hp, _⟩ | ⟨new, _, hnew, hwf, _⟩ | ⟨_, _, heq⟩
    · exact absurd (List.mem_of_getElem? (probe_eq_some hp).2) hfull
    · obtain ⟨k, hk, hpow⟩ := hwf.size
      have hle : 2 ^ k ≤ 2 ^ 24 := Nat.pow_le_pow_right (by decide) hk
      rw [← hpow, hnew, hlen] at hle
      omega
    · exact heq

/-- The index has not come round. A registration may double the slots and look at each of them, so this leaves out the
last `2 * slot_size` of the 24 bits. -/
def Room (s : HandleStorage κ) : Prop := s.handle_index + s.slot.length * 2 ≤ HANDLE_MASK + 1

instance : Decidable s.Room := inferInstanceAs (Decidable (_ ≤ _))

theorem le_of_probe {n : Nat} (hroom : s.handle_index + n ≤ 2 ^ 24) (hp : s.probe (List.range n) = some handle) :
    s.handle_index ≤ handle ∧ handle < 2 ^ 24 := by
  obtain ⟨⟨i, hi, heq⟩, _⟩ := probe_eq_some hp
  have hlt := List.mem_range.1 hi
  rw [Nat.mod_eq_of_lt (by omega)] at heq
  omega

/-- Until the index comes round, a new handle is beyond all those given before. -/
theorem register_fresh (hs : s.Wf) (hroom : s.Room) (hr : s.register ctx = some (h, s')) :
    s.handle_index ≤ h % 2 ^ 24 := by
  have hr24 : s.handle_index + s.slot.length * 2 ≤ 2 ^ 24 := hroom
  have hlow : ∀ {handle}, handle < 2 ^ 24 → (handle ||| s.harbor) % 2 ^ 24 = handle := by
    intro handle hlt
    rw [or_harbor hs hlt, Nat.add_mod, hs.harbor, Nat.zero_add, Nat.mod_mod, Nat.mod_eq_of_lt hlt]
  rcases register_cases ctx hs with ⟨handle, hp, heq⟩ | ⟨new, handle, hlen, hwf, _, hp, heq⟩ | ⟨_, _, heq⟩
  · rw [heq] at hr
    cases hr
    obtain ⟨hle, hlt⟩ := le_of_probe (by omega) hp
    rwa [hlow hlt]
  · rw [heq] at hr
    cases hr
    obtain ⟨hle, hlt⟩ := le_of_probe (by rw [hlen]; exact hr24) hp
    rwa [hlow hlt]
  · rw [heq] at hr
    cases hr

end HandleStorage

end RoundGame.Skynet
