import RoundGame.Lib.BinSearch
import RoundGame.Lib.PMap
import RoundGame.Lib.StepSys
import RoundGame.Skynet.Handle

/-!
# Names of services

The names of `skynet_handle.c` stand in a sorted array and are found by binary search. A name is bound once
(`skynet_handle_namehandle` refuses it a second time), and is unbound when its handle is retired.

`Directory` is what the storage is for: a map from handles to contexts and one from names to handles. Every run of the
storage is a run of the directory (`run_directory`), and the handles that a run gives increase as long as the index does
not come round (`handles_increase`).
-/

namespace RoundGame.Skynet

open Function

/-- `strcmp`, which compares bytes as unsigned numbers. -/
def strcmp (a b : Name) : Ordering := compare a b

instance : Std.TransCmp strcmp := inferInstanceAs (Std.TransOrd Name)

namespace HandleStorage

variable {κ : Type}

/-- The loop that `skynet_handle_findname` and `_insert_name` share: the place of the name, or where to put it. -/
def searchName (s : HandleStorage κ) (name : Name) : Except Nat Nat :=
  BinSearch.search (fun n => strcmp n.1 name) s.name.length s.name 0 s.name.length

def findname (s : HandleStorage κ) (name : Name) : Nat :=
  match s.searchName name with
  | .ok mid => match s.name[mid]? with
    | some n => n.2
    | none => 0
  | .error _ => 0

/-- `none` where the assertion on the capacity fails. -/
def insertNameBefore (s : HandleStorage κ) (name : Name) (handle before : Nat) : Option (HandleStorage κ) :=
  let names := s.name.take before ++ (name, handle) :: s.name.drop before
  if s.name_cap ≤ s.name.length then
    if s.name_cap * 2 ≤ MAX_SLOT_SIZE then some { s with name_cap := s.name_cap * 2, name := names } else none
  else some { s with name := names }

/-- Whether the name was bound, and the storage afterwards. -/
def insertName (s : HandleStorage κ) (name : Name) (handle : Nat) : Option (Bool × HandleStorage κ) :=
  match s.searchName name with
  | .ok _ => some (false, s)
  | .error before => (s.insertNameBefore name handle before).map fun s' => (true, s')

def namehandle (s : HandleStorage κ) (handle : Nat) (name : Name) : Option (Bool × HandleStorage κ) :=
  s.insertName name handle

/-- The names stand in order, each once, within the capacity of the array. -/
structure NamesWf (s : HandleStorage κ) : Prop where
  sorted : s.name.Pairwise fun m n => strcmp m.1 n.1 = .lt
  cap : s.name.length ≤ s.name_cap
  cap_pos : 0 < s.name_cap

variable {s s' : HandleStorage κ} {name : Name} {handle before : Nat} {b : Bool}

theorem namesWf_init (harbor : Nat) : (init harbor : HandleStorage κ).NamesWf :=
  ⟨List.Pairwise.nil, Nat.zero_le _, Nat.two_pos⟩

theorem strcmp_eq_iff {a b : Name} : strcmp a b = .eq ↔ a = b := Std.compare_eq_iff_eq

theorem strcmp_trans {a b c : Name} (hab : strcmp a b = .lt) (hbc : strcmp b c = .lt) : strcmp a c = .lt :=
  Std.TransCmp.lt_trans hab hbc

theorem strcmp_gt_iff {a b : Name} : strcmp a b = .gt ↔ strcmp b a = .lt := Std.OrientedCmp.gt_iff_lt

/-- What is not greater than a name is less than what follows the name. -/
theorem strcmp_lt_of_not_gt {a b c : Name} (hab : strcmp a b = .lt) (hbc : strcmp b c ≠ .gt) : strcmp a c = .lt := by
  cases hcmp : strcmp b c with
  | lt => exact strcmp_trans hab hcmp
  | eq =>
    rw [strcmp_eq_iff] at hcmp
    rwa [← hcmp]
  | gt => exact absurd hcmp hbc

theorem strcmp_gt_of_not_lt {a b c : Name} (hab : strcmp a b = .lt) (hac : strcmp a c ≠ .lt) : strcmp b c = .gt := by
  by_contra hbc
  exact hac (strcmp_lt_of_not_gt hab hbc)

theorem NamesWf.search (hs : s.NamesWf) (name : Name) : BinSearch.Sorted (fun n => strcmp n.1 name) s.name :=
  hs.sorted.imp fun hlt => ⟨strcmp_lt_of_not_gt hlt, strcmp_gt_of_not_lt hlt⟩

theorem NamesWf.nodup (hs : s.NamesWf) : (s.name.map Prod.fst).Nodup := by
  rw [List.Nodup, List.pairwise_map]
  refine hs.sorted.imp fun {m n} hlt heq => ?_
  rw [strcmp_eq_iff.2 heq] at hlt
  cases hlt

theorem NamesWf.lookup (hs : s.NamesWf) : s.name.lookup name = some handle ↔ (name, handle) ∈ s.name := by
  have hbeq : (List.instBEq : BEq Name) = instBEqOfDecidableEq := lawful_beq_subsingleton _ _
  rw [hbeq]
  exact PMap.lookup_eq_some_iff_mem hs.nodup

/-- The search finds the binding of a name, or there is none. -/
theorem searchName_ok {i : Nat} (hs : s.NamesWf) (h : s.searchName name = .ok i) :
    ∃ handle, s.name[i]? = some (name, handle) ∧ s.name.lookup name = some handle := by
  obtain ⟨⟨n, handle⟩, hget, heq⟩ := BinSearch.getElem?_of_search_ok h
  obtain rfl := strcmp_eq_iff.1 heq
  exact ⟨handle, hget, hs.lookup.2 (List.mem_of_getElem? hget)⟩

theorem searchName_error {i : Nat} (hs : s.NamesWf) (h : s.searchName name = .error i) :
    s.name.lookup name = none := by
  rw [Option.eq_none_iff_forall_ne_some]
  intro handle hl
  have hne := BinSearch.search_error_not_mem (hs.search name) h (hs.lookup.1 hl)
  exact hne (strcmp_eq_iff.2 rfl)

theorem findname_eq (hs : s.NamesWf) (name : Name) : s.findname name = (s.name.lookup name).getD 0 := by
  rw [findname]
  cases h : s.searchName name with
  | ok i =>
    obtain ⟨handle, hget, hl⟩ := searchName_ok hs h
    simp only [hget, hl, Option.getD_some]
  | error i => rw [searchName_error hs h, Option.getD_none]

/-- A name that was missed is put where the order asks for it. -/
theorem sorted_insert (hs : s.NamesWf) (h : s.searchName name = .error before) :
    (s.name.take before ++ (name, handle) :: s.name.drop before).Pairwise fun m n => strcmp m.1 n.1 = .lt := by
  obtain ⟨_, hbelow, habove⟩ := BinSearch.search_error_spec (hs.search name) h
  have hparts : (s.name.take before ++ s.name.drop before).Pairwise fun m n => strcmp m.1 n.1 = .lt := by
    rw [List.take_append_drop]
    exact hs.sorted
  obtain ⟨htake, hdrop, hacross⟩ := List.pairwise_append.1 hparts
  refine List.pairwise_append.2 ⟨htake, List.pairwise_cons.2 ⟨?_, hdrop⟩, ?_⟩
  · exact fun n hn => strcmp_gt_iff.1 (habove n hn)
  · intro m hm n hn
    rcases List.mem_cons.1 hn with rfl | hn
    · exact hbelow m hm
    · exact hacross m hm n hn

/-- What the insertion of a name changes. -/
theorem insertNameBefore_spec (h : s.insertNameBefore name handle before = some s') :
    s'.name = s.name.take before ++ (name, handle) :: s.name.drop before ∧ s'.slot = s.slot ∧
      s'.harbor = s.harbor ∧ s'.handle_index = s.handle_index ∧
      s'.name_cap = if s.name_cap ≤ s.name.length then s.name_cap * 2 else s.name_cap := by
  rw [insertNameBefore] at h
  split at h
  · rename_i hcap
    split at h
    · cases h
      exact ⟨rfl, rfl, rfl, rfl, (if_pos hcap).symm⟩
    · cases h
  · rename_i hcap
    cases h
    exact ⟨rfl, rfl, rfl, rfl, (if_neg hcap).symm⟩

theorem insertName_spec (hs : s.NamesWf) (h : s.insertName name handle = some (b, s')) :
    s'.NamesWf ∧ s'.slot = s.slot ∧ s'.harbor = s.harbor ∧ s'.handle_index = s.handle_index ∧
      b = (s.name.lookup name).isNone ∧
      ∀ n, s'.name.lookup n =
        if b then update (fun n => s.name.lookup n) name (some handle) n else s.name.lookup n := by
  rw [insertName] at h
  split at h
  · rename_i i hsearch
    cases h
    obtain ⟨handle, _, hl⟩ := searchName_ok hs hsearch
    exact ⟨hs, rfl, rfl, rfl, by rw [hl]; rfl, fun n => by simp⟩
  · rename_i before hsearch
    obtain ⟨t, ht, heq⟩ := Option.map_eq_some_iff.1 h
    cases heq
    obtain ⟨hname, hslot, hharbor, hindex, hcap⟩ := insertNameBefore_spec ht
    have hnone := searchName_error hs hsearch
    have hwf : s'.NamesWf := by
      refine ⟨by rw [hname]; exact sorted_insert hs hsearch, ?_, ?_⟩
      · have hlen : s'.name.length = s.name.length + 1 := by
          rw [hname, List.length_append, List.length_cons, ← Nat.add_assoc, ← List.length_append,
            List.take_append_drop]
        rw [hlen, hcap]
        have hle := hs.cap
        have hpos := hs.cap_pos
        split <;> omega
      · rw [hcap]
        have hpos := hs.cap_pos
        split <;> omega
    refine ⟨hwf, hslot, hharbor, hindex, by rw [hnone]; rfl, ?_⟩
    intro n
    have hmem : ∀ m k, (m, k) ∈ s'.name ↔ (m = name ∧ k = handle) ∨ (m, k) ∈ s.name := by
      intro m k
      rw [hname, List.mem_append, List.mem_cons, Prod.mk.injEq, or_left_comm, ← List.mem_append,
        List.take_append_drop]
    rw [if_pos rfl]
    apply Option.ext
    intro k
    rw [hwf.lookup, hmem, PMap.update_some_eq_some, hs.lookup]
    constructor
    · rintro (⟨rfl, rfl⟩ | hold)
      · exact Or.inl ⟨rfl, rfl⟩
      · refine Or.inr ⟨?_, hold⟩
        rintro rfl
        rw [hs.lookup.2 hold] at hnone
        cases hnone
    · rintro (⟨rfl, rfl⟩ | ⟨_, hold⟩)
      · exact Or.inl ⟨rfl, rfl⟩
      · exact Or.inr hold

theorem namesWf_retire (hs : s.NamesWf) (handle : Nat) : (s.retire handle).2.NamesWf := by
  rw [retire]
  split
  · exact ⟨hs.sorted.filter _, (List.length_filter_le _ _).trans hs.cap, hs.cap_pos⟩
  · exact hs

/-- The names of a handle go when it is retired, and only when it is in the table. -/
theorem lookup_retire (hs : s.NamesWf) (handle : Nat) (n : Name) :
    (s.retire handle).2.name.lookup n =
      if (s.grab handle).isSome ∧ s.name.lookup n = some handle then none else s.name.lookup n := by
  have hwf := namesWf_retire hs handle
  cases hg : s.grab handle with
  | none =>
    have heq : s.retire handle = (none, s) := by rw [retire, hg]
    rw [heq]
    simp
  | some ctx =>
    have heq : (s.retire handle).2.name = s.name.filter fun n => n.2 ≠ handle := by rw [retire, hg]
    apply Option.ext
    intro k
    rw [hwf.lookup, heq, List.mem_filter, decide_eq_true_eq, ← hs.lookup]
    simp only [Option.isSome_some, true_and]
    split
    · rename_i hl
      rw [hl]
      refine iff_of_false ?_ (Option.some_ne_none k).symm
      rintro ⟨hk, hne⟩
      exact hne (Option.some.inj hk).symm
    · rename_i hl
      refine and_iff_left_of_imp ?_
      rintro hk rfl
      exact hl hk

end HandleStorage

/-! ## The directory of services -/

/-- What the storage is for. -/
structure Directory (κ : Type) where
  service : Nat → Option κ
  name : Name → Option Nat

/-- The operations, each with its result. -/
inductive HandleOp (κ : Type)
  | register (ctx : κ) (handle : Nat)
  | retire (handle : Nat) (ctx : Option κ)
  | grab (handle : Nat) (ctx : Option κ)
  | namehandle (handle : Nat) (name : Name) (bound : Bool)
  | findname (name : Name) (handle : Nat)

namespace Directory

variable {κ : Type} [DecidableEq κ]

def empty : Directory κ := ⟨fun _ => none, fun _ => none⟩

/-- One operation with its result. A registration may give any handle that is not in use. -/
def step (d : Directory κ) : HandleOp κ → Option (Directory κ)
  | .register ctx handle =>
    if d.service handle = none then some { d with service := update d.service handle (some ctx) } else none
  | .retire handle ctx =>
    if d.service handle = ctx then
      some
        { service := update d.service handle none
          name := fun n => if ctx.isSome ∧ d.name n = some handle then none else d.name n }
    else none
  | .grab handle ctx => if d.service handle = ctx then some d else none
  | .namehandle handle name bound =>
    if bound = (d.name name).isNone then
      some { d with name := if bound then update d.name name (some handle) else d.name }
    else none
  | .findname name handle => if handle = (d.name name).getD 0 then some d else none

end Directory

namespace HandleStorage

variable {κ : Type} [DecidableEq κ]

/-- One operation of the storage; `none` when it has another result. -/
def step (s : HandleStorage κ) : HandleOp κ → Option (HandleStorage κ)
  | .register ctx handle => (s.register ctx).bind fun r => if r.1 = handle then some r.2 else none
  | .retire handle ctx => if (s.retire handle).1 = ctx then some (s.retire handle).2 else none
  | .grab handle ctx => if s.grab handle = ctx then some s else none
  | .namehandle handle name bound =>
    (s.namehandle handle name).bind fun r => if r.1 = bound then some r.2 else none
  | .findname name handle => if s.findname name = handle then some s else none

/-- The two maps that the storage stands for. -/
def directory (s : HandleStorage κ) : Directory κ := ⟨s.grab, fun n => s.name.lookup n⟩

/-- The invariant of the storage. -/
def Good (s : HandleStorage κ) : Prop := s.Wf ∧ s.NamesWf

omit [DecidableEq κ] in
theorem good_init (harbor : Nat) : (init harbor : HandleStorage κ).Good := ⟨wf_init harbor, namesWf_init harbor⟩

omit [DecidableEq κ] in
theorem directory_init (harbor : Nat) : (init harbor : HandleStorage κ).directory = Directory.empty := by
  have hnone : (init harbor : HandleStorage κ).grab = fun _ => none := by
    funext h
    rw [Option.eq_none_iff_forall_ne_some]
    intro c hg
    obtain ⟨i, hi⟩ := (grab_eq_some_iff (wf_init harbor)).1 hg
    have hempty := List.eq_of_mem_replicate (List.mem_of_getElem? hi)
    cases hempty
  rw [directory, hnone]
  rfl

omit [DecidableEq κ] in
/-- A storage with the same slots is the same map of handles, and as good. -/
theorem wf_congr {s s' : HandleStorage κ} (hs : s.Wf) (hslot : s'.slot = s.slot) (hharbor : s'.harbor = s.harbor)
    (hindex : s'.handle_index = s.handle_index) : s'.Wf ∧ s'.grab = s.grab := by
  refine ⟨⟨?_, ?_, ?_, ?_, ?_⟩, ?_⟩
  · rw [hslot]
    exact hs.size
  · rw [hslot]
    exact hs.placed
  · rw [hslot, hharbor]
    exact hs.tagged
  · rw [hharbor]
    exact hs.harbor
  · rw [hindex]
    exact hs.index
  · funext h
    rw [grab, grab, hslot]

/-- One operation keeps the invariant, and is one of the directory. -/
theorem step_directory {s s' : HandleStorage κ} {op : HandleOp κ} (hs : s.Good) (h : s.step op = some s') :
    s'.Good ∧ s.directory.step op = some s'.directory := by
  obtain ⟨hwf, hnames⟩ := hs
  cases op with
  | register ctx handle =>
    obtain ⟨⟨h', t⟩, hr, heq⟩ := Option.bind_eq_some_iff.1 h
    split at heq
    · rename_i hh
      cases hh
      cases heq
      have hreg := register_spec hwf hr
      refine ⟨⟨hreg.wf, ?_⟩, ?_⟩
      · exact ⟨hreg.names ▸ hnames.sorted, by rw [hreg.names, hreg.cap]; exact hnames.cap,
          hreg.cap ▸ hnames.cap_pos⟩
      · rw [Directory.step, directory, if_pos hreg.free, directory, hreg.grab, hreg.names]
    · cases heq
  | retire handle ctx =>
    rw [step] at h
    split at h
    · rename_i hctx
      cases h
      rw [retire_eq] at hctx
      refine ⟨⟨wf_retire hwf handle, namesWf_retire hnames handle⟩, ?_⟩
      rw [Directory.step, directory, if_pos hctx, directory, retire_spec hwf]
      subst hctx
      simp only [lookup_retire hnames]
    · cases h
  | grab handle ctx =>
    rw [step] at h
    split at h
    · rename_i hctx
      cases h
      exact ⟨⟨hwf, hnames⟩, if_pos hctx⟩
    · cases h
  | namehandle handle name bound =>
    obtain ⟨⟨b, t⟩, hr, heq⟩ := Option.bind_eq_some_iff.1 h
    split at heq
    · rename_i hb
      cases hb
      cases heq
      obtain ⟨hnames', hslot, hharbor, hindex, hbound, hlookup⟩ := insertName_spec hnames hr
      obtain ⟨hwf', hgrab⟩ := wf_congr hwf hslot hharbor hindex
      refine ⟨⟨hwf', hnames'⟩, ?_⟩
      rw [Directory.step, directory, if_pos hbound, directory, hgrab]
      congr 2
      funext n
      rw [hlookup]
      cases b <;> rfl
    · cases heq
  | findname name handle =>
    rw [step] at h
    split at h
    · rename_i hh
      cases h
      rw [findname_eq hnames] at hh
      exact ⟨⟨hwf, hnames⟩, if_pos hh.symm⟩
    · cases h

theorem good_run {s s' : HandleStorage κ} {ops : List (HandleOp κ)} (hs : s.Good)
    (h : StepSys.run step s ops = some s') : s'.Good :=
  StepSys.run_inv (fun hg hstep => (step_directory hg hstep).1) hs h

/-- Every run of the storage is a run of the directory with the same results. -/
theorem run_directory {s : HandleStorage κ} {harbor : Nat} {ops : List (HandleOp κ)}
    (h : StepSys.run step (init harbor) ops = some s) :
    StepSys.run Directory.step Directory.empty ops = some s.directory := by
  rw [← directory_init harbor]
  have hgood := good_init (κ := κ) harbor
  generalize init harbor = t at h hgood
  induction ops generalizing t with
  | nil =>
    cases h
    rfl
  | cons op ops ih =>
    obtain ⟨u, hu, hrest⟩ := StepSys.run_cons.1 h
    obtain ⟨hgood', hstep⟩ := step_directory hgood hu
    exact StepSys.run_cons.2 ⟨_, hstep, ih u hrest hgood'⟩

/-! ## Handles are not used twice -/

omit [DecidableEq κ] in
/-- The handles that are given by a list of operations. -/
def handles (ops : List (HandleOp κ)) : List Nat :=
  ops.filterMap fun op => match op with
    | .register _ handle => some handle
    | _ => none

/-- Before each registration, the index has not come round. -/
def RoomFor (s : HandleStorage κ) : HandleOp κ → Prop
  | .register _ _ => s.Room
  | _ => True

instance (s : HandleStorage κ) : ∀ op, Decidable (s.RoomFor op)
  | .register _ _ => inferInstanceAs (Decidable s.Room)
  | .retire _ _ | .grab _ _ | .namehandle _ _ _ | .findname _ _ => isTrue trivial

/-- What a registration with a given result leaves, when there is room. -/
theorem step_register {s s' : HandleStorage κ} {ctx : κ} {handle : Nat} (hs : s.Wf) (hroom : s.Room)
    (h : s.step (.register ctx handle) = some s') :
    s'.harbor = s.harbor ∧ s.harbor + s.handle_index ≤ handle ∧ handle < s'.harbor + s'.handle_index := by
  obtain ⟨⟨h', t⟩, hr, heq⟩ := Option.bind_eq_some_iff.1 h
  split at heq
  · rename_i hh
    cases hh
    cases heq
    have hreg := register_spec hs hr
    have hfresh := register_fresh hs hroom hr
    have htag : h' / 2 ^ 24 * 2 ^ 24 = t.harbor :=
      tagged_of_grab (c := ctx) hreg.wf (by rw [hreg.grab, update_self])
    have hdiv := Nat.div_add_mod h' (2 ^ 24)
    rw [hreg.index, hreg.harbor]
    rw [hreg.harbor] at htag
    refine ⟨rfl, ?_, ?_⟩ <;> omega
  · cases heq

/-- The other operations leave the index as it is. -/
theorem step_other {s s' : HandleStorage κ} {op : HandleOp κ} (hs : s.Good) (hop : handles [op] = [])
    (h : s.step op = some s') : s'.harbor = s.harbor ∧ s'.handle_index = s.handle_index := by
  cases op with
  | register ctx handle => cases hop
  | retire handle ctx =>
    rw [step] at h
    split at h
    · cases h
      exact ⟨retire_harbor s handle, retire_handle_index s handle⟩
    · cases h
  | grab handle ctx =>
    rw [step] at h
    split at h
    · cases h
      exact ⟨rfl, rfl⟩
    · cases h
  | namehandle handle name bound =>
    obtain ⟨⟨b, t⟩, hr, heq⟩ := Option.bind_eq_some_iff.1 h
    split at heq
    · cases heq
      obtain ⟨_, _, hharbor, hindex, _⟩ := insertName_spec hs.2 hr
      exact ⟨hharbor, hindex⟩
    · cases heq
  | findname name handle =>
    rw [step] at h
    split at h
    · cases h
      exact ⟨rfl, rfl⟩
    · cases h

theorem run_handles {s s' : HandleStorage κ} {ops : List (HandleOp κ)} (hs : s.Good)
    (hroom : StepSys.Along step RoomFor s ops) (h : StepSys.run step s ops = some s') :
    (handles ops).Pairwise (· < ·) ∧ ∀ handle ∈ handles ops, s.harbor + s.handle_index ≤ handle := by
  induction ops generalizing s with
  | nil => exact ⟨List.Pairwise.nil, nofun⟩
  | cons op ops ih =>
    obtain ⟨u, hu, hrest⟩ := StepSys.run_cons.1 h
    obtain ⟨hhere, hlater⟩ := hroom u hu
    obtain ⟨hsorted, hbound⟩ := ih (step_directory hs hu).1 hlater hrest
    cases hop : handles [op] with
    | nil =>
      obtain ⟨hharbor, hindex⟩ := step_other hs hop hu
      have hsame : handles (op :: ops) = handles ops := by
        rw [← List.singleton_append, handles, List.filterMap_append]
        exact congrArg (· ++ handles ops) hop
      rw [hsame, ← hharbor, ← hindex]
      exact ⟨hsorted, hbound⟩
    | cons handle _ =>
      cases op with
      | register ctx handle =>
        obtain ⟨hharbor, hge, hlt⟩ := step_register hs.1 hhere hu
        have hcons : handles (.register ctx handle :: ops) = handle :: handles ops := rfl
        rw [hcons, List.pairwise_cons]
        refine ⟨⟨fun k hk => hlt.trans_le (hbound k hk), hsorted⟩, ?_⟩
        intro k hk
        rcases List.mem_cons.1 hk with rfl | hk
        · exact hge
        · exact (hge.trans hlt.le).trans (hbound k hk)
      | retire _ _ => cases hop
      | grab _ _ => cases hop
      | namehandle _ _ _ => cases hop
      | findname _ _ => cases hop

/-- As long as the index does not come round, every handle is greater than all those given before, so that none is
given twice, and none is 0. -/
theorem handles_increase {s : HandleStorage κ} {harbor : Nat} {ops : List (HandleOp κ)}
    (hroom : StepSys.Along step RoomFor (init harbor) ops) (h : StepSys.run step (init harbor) ops = some s) :
    (handles ops).Pairwise (· < ·) ∧ ∀ handle ∈ handles ops, 0 < handle := by
  obtain ⟨hsorted, hbound⟩ := run_handles (good_init harbor) hroom h
  refine ⟨hsorted, fun handle hmem => ?_⟩
  have hle : (init harbor : HandleStorage κ).harbor + 1 ≤ handle := hbound handle hmem
  exact Nat.lt_of_lt_of_le (Nat.succ_pos _) hle

/-- Five services, the fifth in a table that was doubled; the name of one that is retired is free again. -/
def someOps : List (HandleOp Nat) :=
  [.register 10 0x1000001, .register 11 0x1000002, .namehandle 0x1000002 [108, 111, 103] true,
    .register 12 0x1000003, .namehandle 0x1000001 [97, 103] true, .namehandle 0x1000003 [108, 111, 103] false,
    .register 13 0x1000004, .register 14 0x1000005, .findname [108, 111, 103] 0x1000002,
    .retire 0x1000002 (some 11), .grab 0x1000002 none, .findname [108, 111, 103] 0, .findname [97, 103] 0x1000001,
    .register 15 0x1000006, .grab 0x1000005 (some 14), .retire 0x1000002 none]

theorem run_directory_someOps : ∃ s, StepSys.run step (init 1) someOps = some s ∧
    StepSys.run Directory.step Directory.empty someOps = some s.directory := by
  have hrun : (StepSys.run step (init 1) someOps).isSome := by decide +kernel
  obtain ⟨s, hs⟩ := Option.isSome_iff_exists.1 hrun
  exact ⟨s, hs, run_directory hs⟩

theorem handles_increase_someOps :
    (handles someOps).Pairwise (· < ·) ∧ ∀ handle ∈ handles someOps, 0 < handle := by
  have hrun : (StepSys.run step (init 1) someOps).isSome := by decide +kernel
  obtain ⟨s, hs⟩ := Option.isSome_iff_exists.1 hrun
  exact handles_increase (by decide +kernel) hs

end HandleStorage

end RoundGame.Skynet
