import RoundGame.Base.ReloadUpdate

/-!
# When a reload updates

A reload updates a module, whatever the order in which the tables list their fields, when no two tables of the module
have a field of the same name (`Unshared`, `reload_updated_of_unshared`); a module of one class is like this.

The walk then comes to every table that stays: when it has met a name in two tables that both hold tables there, it has
gone through these (`Closed`, `walk_closed`). And each name is met in the one pair of tables that has it (`Sound`).
-/

namespace RoundGame.Base

open Lua

/-- The pair of tables has the name. -/
def Has (h : LuaHeap) (k : Key) (a b : Ref) : Prop := (h.get a k).isSome ∨ (h.get b k).isSome

/-- Each name has been met in a pair with `P` that has it. -/
def Sound (h : LuaHeap) (P : Ref → Ref → Prop) (m : Met) : Prop := ∀ x ∈ m, P x.2.1 x.2.2 ∧ Has h x.1 x.2.1 x.2.2

/-- The walk has met all names of the pair. -/
def Entered (h : LuaHeap) (a b : Ref) (m : Met) : Prop := ∀ k, Has h k a b → k ∈ m.names

/-- From `m` to `m'` the walk has gone through the tables that it has found. -/
structure Closed (h : LuaHeap) (m m' : Met) : Prop where
  onto : m.Onto m'
  found : ∀ x ∈ m', x ∈ m ∨ ∀ a b, h.find x.2.1 x.1 = some (.table a) → h.get x.2.2 x.1 = some (.table b) →
    Entered h a b m'

/-! ## The walk -/

section Walk

variable {h : LuaHeap} {P : Ref → Ref → Prop} {walk : Ref → Ref → Met → Met} {a b old new : Ref} {m m' : Met} {k : Key}

theorem Sound.cons (hm : Sound h P m) (hP : P old new) (hk : Has h k old new) : Sound h P ((k, old, new) :: m) :=
  List.forall_mem_cons.2 ⟨⟨hP, hk⟩, hm⟩

theorem sound_walkNew (hw : ∀ a b m, P a b → Sound h P m → Sound h P (walk a b m))
    (hchild : ∀ a b k a' b', P a b → h.find a k = some (.table a') → h.get b k = some (.table b') → P a' b')
    (hP : P old new) (hm : Sound h P m) : Sound h P (h.walkNew walk old new m k) := by
  unfold LuaHeap.walkNew
  split
  · exact hm
  · rename_i v hnew
    have hcons : Sound h P ((k, old, new) :: m) := hm.cons hP (Or.inr (Option.isSome_iff_exists.2 ⟨v, hnew⟩))
    split
    · exact hm
    · split
      · rename_i a b hold
        exact hw a b _ (hchild old new k a b hP hold hnew) hcons
      · exact hcons

theorem sound_walkOld (hP : P old new) (hm : Sound h P m) (hk : k ∈ (h.fields old).keys) :
    Sound h P (h.walkOld old new m k) := by
  unfold LuaHeap.walkOld
  split
  · exact hm.cons hP (Or.inl (Fields.mem_keys.1 hk))
  · exact hm

theorem sound_walk (hchild : ∀ a b k a' b', P a b → h.find a k = some (.table a') → h.get b k = some (.table b') →
    P a' b') (depth : Nat) : ∀ old new m, P old new → Sound h P m → Sound h P (h.walk depth old new m) := by
  induction depth with
  | zero => exact fun _ _ _ _ => id
  | succ depth ih =>
    intro old new m hP hm
    unfold LuaHeap.walk
    refine List.foldlRecOn _ _ ?_ fun m' hm' k hk => sound_walkOld hP hm' hk
    exact List.foldlRecOn _ _ hm fun m' hm' k _ => sound_walkNew ih hchild hP hm'

theorem Entered.onto (h' : Entered h a b m) (hm : m.Onto m') : Entered h a b m' := fun k hk => hm k (h' k hk)

theorem Closed.refl (m : Met) : Closed h m m := ⟨Met.Onto.refl m, fun _ => Or.inl⟩

theorem Closed.trans {m₁ m₂ m₃ : Met} (h₁ : Closed h m₁ m₂) (h₂ : Closed h m₂ m₃) : Closed h m₁ m₃ where
  onto := h₁.onto.trans h₂.onto
  found x hx := by
    rcases h₂.found x hx with hx | hx
    · rcases h₁.found x hx with hx | hx
      · exact Or.inl hx
      · exact Or.inr fun a b hold hnew => (hx a b hold hnew).onto h₂.onto
    · exact Or.inr hx

/-- A name whose tables the walk has gone through next, when there are two. -/
theorem Closed.cons (hm : Closed h ((k, old, new) :: m) m')
    (hk : ∀ a b, h.find old k = some (.table a) → h.get new k = some (.table b) → Entered h a b m') :
    Closed h m m' where
  onto := (onto_cons m _).trans hm.onto
  found x hx := by
    rcases hm.found x hx with hx | hx
    · rcases List.mem_cons.1 hx with rfl | hx
      · exact Or.inr hk
      · exact Or.inl hx
    · exact Or.inr hx

theorem closed_walkNew {U : Finset Key} (hU : ∀ a, ∀ k ∈ (h.fields a).keys, k ∈ U)
    (ih : ∀ a b m', unmet U m' < unmet U m → Closed h m' (walk a b m') ∧ Entered h a b (walk a b m')) :
    Closed h m (h.walkNew walk old new m k) := by
  by_cases hk : k ∈ m.names
  · rw [walkNew_of_mem hk]
    exact Closed.refl m
  · cases hnew : h.get new k with
    | none =>
      rw [walkNew_none hnew]
      exact Closed.refl m
    | some v =>
      have hsome : (h.get new k).isSome := Option.isSome_iff_exists.2 ⟨v, hnew⟩
      by_cases hb : BothTables (h.find old k) (h.get new k)
      · obtain ⟨a, b, hold, hnew'⟩ := hb
        rw [walkNew_tables hk hold hnew']
        obtain ⟨hclosed, hentered⟩ := ih a b _ (unmet_cons_lt (hU new k (Fields.mem_keys.2 hsome)) hk)
        refine hclosed.cons fun a' b' hold' hnew'' => ?_
        obtain rfl := Value.table.inj (Option.some.inj (hold.symm.trans hold'))
        obtain rfl := Value.table.inj (Option.some.inj (hnew'.symm.trans hnew''))
        exact hentered
      · rw [walkNew_other hk hsome hb]
        exact (Closed.refl _).cons fun a b hold hnew' => absurd ⟨a, b, hold, hnew'⟩ hb

theorem closed_walkOld (hnew : (h.get new k).isSome → k ∈ m.names) : Closed h m (h.walkOld old new m k) := by
  unfold LuaHeap.walkOld
  split
  · rename_i hk
    refine (Closed.refl _).cons fun a b _ hb => absurd (hnew ?_) hk.1
    exact Option.isSome_iff_exists.2 ⟨_, hb⟩
  · exact Closed.refl m

/-- The second loop meets the names that only the old table has. -/
theorem mem_walkOld (hnew : (h.get new k).isSome → k ∈ m.names) : k ∈ (h.walkOld old new m k).names := by
  unfold LuaHeap.walkOld
  split
  · exact List.mem_cons_self
  · rename_i hk
    by_contra hmem
    have hnone : h.get new k = none := Option.not_isSome_iff_eq_none.1 fun hs => hmem (hnew hs)
    exact hk ⟨hmem, by rw [hnone]; rfl⟩

theorem walk_closed {U : Finset Key} (hU : ∀ a, ∀ k ∈ (h.fields a).keys, k ∈ U) (depth : Nat) :
    ∀ old new m, unmet U m < depth →
      Closed h m (h.walk depth old new m) ∧ Entered h old new (h.walk depth old new m) := by
  induction depth with
  | zero => exact fun _ _ m hm => absurd hm (Nat.not_lt_zero _)
  | succ depth ih =>
    intro old new m hm
    have hon : ∀ a b m, Met.Onto m (h.walk depth a b m) := onto_walk depth
    let m₁ := (h.fields new).keys.foldl (h.walkNew (h.walk depth) old new) m
    have hfirst : Closed h m m₁ := by
      refine List.foldlRecOn _ _ (Closed.refl m) fun m' hm' k _ => hm'.trans (closed_walkNew hU fun a b m'' hlt => ?_)
      have hle : unmet U m' ≤ depth := Nat.le_trans (unmet_le U hm'.onto) (Nat.le_of_lt_succ hm)
      exact ih a b m'' (Nat.lt_of_lt_of_le hlt hle)
    have hnew : ∀ k, (h.get new k).isSome → k ∈ m₁.names := fun k hk =>
      mem_foldl_walkNew hon (Fields.mem_keys.2 hk) hk
    have hsecond : Closed h m₁ (h.walk (depth + 1) old new m) := by
      unfold LuaHeap.walk
      exact List.foldlRecOn _ _ (Closed.refl m₁) fun m' hm' k _ =>
        hm'.trans (closed_walkOld fun hk => hm'.onto k (hnew k hk))
    refine ⟨hfirst.trans hsecond, fun k hk => ?_⟩
    rcases hk with hk | hk
    · unfold LuaHeap.walk
      exact foldl_reaches onto_walkOld (fun _ _ hm hk => hm k hk) (Fields.mem_keys.2 hk) m₁ fun m' hm' =>
        mem_walkOld fun hs => hm' k (hnew k hs)
    · exact hsecond.onto k (hnew k hk)

end Walk

/-! ## The module -/

section Module

variable {f : Chunk} {s t : LuaState} {depth : Nat} {a b a' b' : Ref} {k : Key} {v : Option Value}

/-- No two tables of the module have a field of the same name; the new version builds its tables anew and assigns all
names of the module, and what a class inherits has no tables of the names in which it has tables itself. -/
structure Unshared (f : Chunk) (s t : LuaState) : Prop where
  names : ∀ k, (s.env.get k).isSome → k ∈ f.names
  /-- Running the new version changes no table that stays. -/
  untouched : ∀ a b, Kept f s t a b → ∀ k, t.heap.get a k = s.heap.get a k
  own : ∀ a b, Kept f s t a b → ∀ k, BothTables (t.heap.find a k) (t.heap.get b k) →
    BothTables (t.heap.get a k) (t.heap.get b k)
  /-- A table has one table of the new version in its place. -/
  one : ∀ a b b', Kept f s t a b → Kept f s t a b' → b = b'
  single : ∀ k a b a' b', Kept f s t a b → Kept f s t a' b' → Has t.heap k a b → Has t.heap k a' b' → a = a' ∧ b = b'
  fresh : ∀ a b, Added f s t a → ¬ Kept f s t a b

theorem find_of_isSome {h : LuaHeap} (hk : (h.get a k).isSome) : h.find a k = h.get a k := by
  obtain ⟨v, hv⟩ := Option.isSome_iff_exists.1 hk
  unfold LuaHeap.find
  rw [List.findSome?_cons, hv]

theorem Unshared.bothTables_iff (hu : Unshared f s t) (h : Kept f s t a b) :
    BothTables (t.heap.find a k) (t.heap.get b k) ↔ BothTables (t.heap.get a k) (t.heap.get b k) := by
  refine ⟨hu.own a b h k, fun ⟨a', b', hold, hnew⟩ => ⟨a', b', ?_, hnew⟩⟩
  rw [find_of_isSome (Option.isSome_iff_exists.2 ⟨_, hold⟩), hold]

/-- The tables in the tables that stay stay. -/
theorem Unshared.child (hu : Unshared f s t) (h : Kept f s t a b) (hold : t.heap.find a k = some (.table a'))
    (hnew : t.heap.get b k = some (.table b')) : Kept f s t a' b' := by
  obtain ⟨c, d, hold', -⟩ := hu.own a b h k ⟨a', b', hold, hnew⟩
  rw [find_of_isSome (Option.isSome_iff_exists.2 ⟨_, hold'⟩), hu.untouched a b h] at hold
  exact Kept.field h hold hnew

theorem Unshared.top (hu : Unshared f s t) (hold : s.env.get k = some (.table a))
    (hnew : t.env.get k = some (.table b)) : Kept f s t a b := by
  refine Kept.top hold ?_
  unfold newTop
  rw [if_pos (hu.names k (Option.isSome_iff_exists.2 ⟨_, hold⟩)), hnew]

theorem Unshared.sound (hu : Unshared f s t) (depth : Nat) : Sound t.heap (Kept f s t) (firsts s t depth) := by
  unfold firsts
  refine List.foldlRecOn _ _ (fun _ hx => absurd hx List.not_mem_nil) fun m hm k _ => ?_
  unfold firstsField
  split
  · rename_i b a hnew hold
    exact sound_walk (fun a b k a' b' h => hu.child h) depth a b m (hu.top hold hnew) hm
  · exact hm

theorem closed_firstsField {h : LuaHeap} {U : Finset Key} (hU : ∀ a, ∀ k ∈ (h.fields a).keys, k ∈ U)
    (hdepth : U.card < depth) (env bak_m : Fields Key Value) (m : Met) (k : Key) :
    Closed h m (firstsField h depth env bak_m m k) ∧ ∀ a b, bak_m.get k = some (.table a) →
      env.get k = some (.table b) → Entered h a b (firstsField h depth env bak_m m k) := by
  have hunmet : unmet U m < depth := Nat.lt_of_le_of_lt (Finset.card_filter_le U _) hdepth
  by_cases hb : BothTables (bak_m.get k) (env.get k)
  · obtain ⟨a, b, hold, hnew⟩ := hb
    rw [firstsField_tables hnew hold]
    obtain ⟨hclosed, hentered⟩ := walk_closed hU depth a b m hunmet
    refine ⟨hclosed, fun a' b' hold' hnew' => ?_⟩
    obtain rfl := Value.table.inj (Option.some.inj (hold.symm.trans hold'))
    obtain rfl := Value.table.inj (Option.some.inj (hnew.symm.trans hnew'))
    exact hentered
  · rw [firstsField_other hb]
    exact ⟨Closed.refl m, fun a b hold hnew => absurd ⟨a, b, hold, hnew⟩ hb⟩

/-- The merge comes to every table that stays. -/
theorem Unshared.entered (hu : Unshared f s t) {U : Finset Key} (hU : ∀ a, ∀ k ∈ (t.heap.fields a).keys, k ∈ U)
    (hdepth : U.card < depth) (h : Kept f s t a b) : Entered t.heap a b (firsts s t depth) := by
  have hstep := closed_firstsField (h := t.heap) hU hdepth t.env s.env
  induction h with
  | top hold hnew =>
    rename_i k a b
    unfold newTop at hnew
    split at hnew
    · have hkey : k ∈ t.env.keys := Fields.mem_keys.2 (Option.isSome_iff_exists.2 ⟨_, hnew⟩)
      exact foldl_reaches (fun m k => (hstep m k).1.onto) (fun _ _ hm he => he.onto hm) hkey [] fun m _ =>
        (hstep m k).2 a b hold hnew
    · cases hnew
  | field h hold hnew ih =>
    rename_i k a b a' b'
    have hget : t.heap.get a k = some (.table a') := (hu.untouched a b h k).trans hold
    have hhas : Has t.heap k a b := Or.inl (Option.isSome_iff_exists.2 ⟨_, hget⟩)
    obtain ⟨⟨_, x, y⟩, hmem, rfl⟩ := List.mem_map.1 (ih k hhas)
    obtain ⟨hkept, hhas'⟩ := hu.sound depth _ hmem
    obtain ⟨rfl, rfl⟩ := hu.single _ a b x y h hkept hhas hhas'
    have hclosed : Closed t.heap [] (firsts s t depth) :=
      List.foldlRecOn _ _ (Closed.refl []) fun m hm k _ => hm.trans (hstep m k).1
    refine (hclosed.found _ hmem).elim (fun hnil => absurd hnil List.not_mem_nil) fun hchild => ?_
    exact hchild a' b' ((find_of_isSome (Option.isSome_iff_exists.2 ⟨_, hget⟩)).trans hget) hnew

/-- Each name is met first in the pair of tables that has it. -/
theorem Unshared.lookup (hu : Unshared f s t) {U : Finset Key} (hU : ∀ a, ∀ k ∈ (t.heap.fields a).keys, k ∈ U)
    (hdepth : U.card < depth) (h : Kept f s t a b) (hhas : Has t.heap k a b) :
    (firsts s t depth).lookup k = some (a, b) := by
  obtain ⟨⟨x, y⟩, hxy⟩ := Option.isSome_iff_exists.1 (Fields.lookup_isSome_iff.2 (hu.entered hU hdepth h k hhas))
  obtain ⟨hkept, hhas'⟩ : Kept f s t x y ∧ Has t.heap k x y := hu.sound depth _ (Fields.mem_of_lookup hxy)
  obtain ⟨rfl, rfl⟩ := hu.single k a b x y h hkept hhas hhas'
  exact hxy

theorem Unshared.updates (hu : Unshared f s t) {U : Finset Key} (hU : ∀ a, ∀ k ∈ (t.heap.fields a).keys, k ∈ U)
    (hdepth : U.card < depth) : Updates f s t depth where
  names := hu.names
  changes a k v hv hne := by
    cases hv with
    | added k h => exact absurd rfl hne
    | @kept b k h =>
      rw [← hu.untouched a b h] at hne ⊢
      by_cases hb : BothTables (t.heap.get a k) (t.heap.get b k)
      · obtain ⟨a', b', hold, hnew⟩ := hb
        rw [hold, hnew] at hne
        exact absurd rfl hne
      · rw [merged_other hb] at hne ⊢
        have hhas : Has t.heap k a b := by
          by_contra hnone
          rw [Has, not_or, Option.not_isSome_iff_eq_none, Option.not_isSome_iff_eq_none] at hnone
          exact hne (hnone.1.trans hnone.2.symm)
        exact ⟨b, ⟨hu.lookup hU hdepth h hhas, fun hf => hb ((hu.bothTables_iff h).1 hf)⟩, rfl⟩
  stays a k v hv heq c hw := by
    obtain ⟨hkept, hhas⟩ : Kept f s t a c ∧ Has t.heap k a c := hu.sound depth _ (Fields.mem_of_lookup hw.1)
    cases hv with
    | added k h => exact absurd hkept (hu.fresh a c h)
    | @kept b k h =>
      obtain rfl := hu.one a b c h hkept
      rw [← hu.untouched a b h, merged_other fun hb => hw.2 ((hu.bothTables_iff h).2 hb)]

/-- A reload updates a module in which no two tables share a name. -/
theorem reload_updated_of_unshared (hrun : f.run.exec s = (.ok ⟨⟩, t)) (hstrict : ∀ a, t.heap.strict a = none)
    (hu : Unshared f s t) : ∃ n, ∀ depth, n ≤ depth → ∃ u,
      (reload depth (.chunk f)).exec s = (.ok .success, u) ∧ Updated f s t u := by
  obtain ⟨U, hU⟩ := t.heap.finite
  obtain ⟨n, hn⟩ := reload_merged hrun hstrict
  refine ⟨max n (U.card + 1), fun depth hdepth => ?_⟩
  obtain ⟨u, hexec, hmerged⟩ := hn depth (Nat.le_trans (Nat.le_max_left _ _) hdepth)
  exact ⟨u, hexec, (updated_iff hrun hmerged).2 (hu.updates hU (Nat.le_trans (Nat.le_max_right _ _) hdepth))⟩

end Module

/-- A module with one class. -/
theorem unshared_warObj : Unshared (classFile warObj') (loaded warObj) (loaded (warObj ++ warObj')) where
  names k hk := by
    rw [env_warObj hk]
    exact List.mem_singleton_self _
  untouched a b h k := by
    obtain ⟨rfl, rfl⟩ := kept_warObj h
    exact get_warObj_old
  own a b h k hb := by
    obtain ⟨rfl, rfl⟩ := kept_warObj h
    obtain ⟨a', b', -, hnew⟩ := hb
    obtain ⟨rfl, rfl⟩ := warObj_table hnew
    exact ⟨1, 2, rfl, rfl⟩
  one a b b' h h' := (kept_warObj h).2.trans (kept_warObj h').2.symm
  single k a b a' b' h h' _ _ :=
    ⟨(kept_warObj h).1.trans (kept_warObj h').1.symm, (kept_warObj h).2.trans (kept_warObj h').2.symm⟩
  fresh a b h := absurd h not_added_warObj

end RoundGame.Base
