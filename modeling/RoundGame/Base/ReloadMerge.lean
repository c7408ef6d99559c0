import RoundGame.Base.Reload

/-!
# What the merge of a reload writes

As long as the name `k` has not been visited, no table has been written under it. So `recu` reads what the walk reads,
and goes the way of the walk: after it, the visited names are those that the walk has met, and each table is what the
walk says (`Sim`, `sim_recu`). The recursion is as deep as there are names of fields, at most.
-/

namespace RoundGame.Base

open Function Lua

namespace LuaHeap

variable {h : LuaHeap} {a b : Ref} {j k : Key} {v : Option Value} {m : Met} {old new : Ref}

theorem get_set : (h.set a k v).get b j = if b = a ∧ j = k then v else h.get b j := by
  unfold LuaHeap.get LuaHeap.set
  dsimp only
  by_cases hb : b = a
  · subst hb
    rw [update_self, Fields.get_put]
    exact if_congr (and_iff_right rfl).symm rfl rfl
  · rw [update_of_ne hb, if_neg fun hc => hb hc.1]

theorem filter_keys_set {p : Key → Bool} (hp : p k = false) :
    ((h.set a k v).fields b).keys.filter p = (h.fields b).keys.filter p := by
  unfold LuaHeap.set
  dsimp only
  by_cases hb : b = a
  · subst hb
    rw [update_self, Fields.filter_keys_put hp]
  · rw [update_of_ne hb]

theorem after_of_not_mem (hk : k ∉ m.names) : h.after m a k = h.get a k := by
  have hnone : m.lookup k = none :=
    Option.not_isSome_iff_eq_none.1 fun hs => hk (Fields.lookup_isSome_iff.1 hs)
  unfold after
  rw [hnone]

theorem after_cons_self : h.after ((k, old, new) :: m) a k =
    if a = old then (h.written k old new).getD (h.get a k) else h.get a k := by
  unfold after
  rw [List.lookup_cons, beq_self_eq_true]

theorem after_cons_of_ne (hj : j ≠ k) : h.after ((k, old, new) :: m) a j = h.after m a j := by
  unfold after
  rw [List.lookup_cons, beq_eq_false_iff_ne.2 hj]

end LuaHeap

/-! ## The walk -/

section Walk

variable {h : LuaHeap} {walk : Ref → Ref → Met → Met} {old new : Ref} {m m' : Met} {k : Key}

/-- The walk goes on from `m` to `m'`. -/
def Met.Onto (m m' : Met) : Prop := ∀ k ∈ m.names, k ∈ m'.names

theorem Met.Onto.refl (m : Met) : m.Onto m := fun _ => id

theorem Met.Onto.trans {m₁ m₂ m₃ : Met} (h₁ : m₁.Onto m₂) (h₂ : m₂.Onto m₃) : m₁.Onto m₃ :=
  fun k hk => h₂ k (h₁ k hk)

theorem walkNew_of_mem (hk : k ∈ m.names) : h.walkNew walk old new m k = m := by
  unfold LuaHeap.walkNew
  split
  · rfl
  · rw [if_pos hk]

/-- Two tables. -/
def BothTables (x y : Option Value) : Prop := ∃ a b, x = some (.table a) ∧ y = some (.table b)

theorem written_tables (hb : BothTables (h.find old k) (h.get new k)) : h.written k old new = none := by
  obtain ⟨a, b, hold, hnew⟩ := hb
  unfold LuaHeap.written
  rw [hold, hnew]

theorem written_other (hb : ¬ BothTables (h.find old k) (h.get new k)) :
    h.written k old new = some (h.get new k) := by
  unfold LuaHeap.written
  split
  · rename_i a b hold hnew
    exact absurd ⟨a, b, hold, hnew⟩ hb
  · rfl

theorem walkNew_none (hnew : h.get new k = none) : h.walkNew walk old new m k = m := by
  unfold LuaHeap.walkNew
  rw [hnew]

theorem walkNew_tables (hk : k ∉ m.names) {a b : Ref} (hold : h.find old k = some (.table a))
    (hnew : h.get new k = some (.table b)) : h.walkNew walk old new m k = walk a b ((k, old, new) :: m) := by
  unfold LuaHeap.walkNew
  rw [hnew]
  dsimp only
  rw [if_neg hk, hold]

theorem walkNew_other (hk : k ∉ m.names) (hnew : (h.get new k).isSome)
    (hb : ¬ BothTables (h.find old k) (h.get new k)) : h.walkNew walk old new m k = (k, old, new) :: m := by
  obtain ⟨v, hv⟩ := Option.isSome_iff_exists.1 hnew
  rw [hv] at hb
  unfold LuaHeap.walkNew
  rw [hv]
  dsimp only
  rw [if_neg hk]
  split
  · rename_i a b hold
    exact absurd ⟨a, b, hold, rfl⟩ hb
  · rfl

theorem walkOld_of_mem (hk : k ∈ m.names) : h.walkOld old new m k = m := if_neg fun hc => hc.1 hk

theorem onto_cons (m : Met) (x : Key × Ref × Ref) : m.Onto (x :: m) := fun _ => List.mem_cons_of_mem _

theorem onto_walkNew (hw : ∀ a b m, Met.Onto m (walk a b m)) (m : Met) (k : Key) :
    m.Onto (h.walkNew walk old new m k) := by
  unfold LuaHeap.walkNew
  split
  · exact Met.Onto.refl _
  · split
    · exact Met.Onto.refl _
    · split
      · exact (onto_cons m _).trans (hw _ _ _)
      · exact onto_cons m _

theorem onto_walkOld (m : Met) (k : Key) : m.Onto (h.walkOld old new m k) := by
  unfold LuaHeap.walkOld
  split
  · exact onto_cons m _
  · exact Met.Onto.refl _

theorem onto_foldl {f : Met → Key → Met} (hf : ∀ m k, Met.Onto m (f m k)) (l : List Key) (m : Met) :
    m.Onto (l.foldl f m) := by
  induction l generalizing m with
  | nil => exact Met.Onto.refl _
  | cons k l ih => exact (hf m k).trans (ih (f m k))

theorem onto_walk (depth : Nat) : ∀ old new m, Met.Onto m (h.walk depth old new m) := by
  induction depth with
  | zero => exact fun _ _ m => Met.Onto.refl m
  | succ depth ih =>
    exact fun old new m => (onto_foldl (onto_walkNew ih) _ m).trans (onto_foldl onto_walkOld _ _)

/-- The first loop meets every name of the new table. -/
theorem mem_walkNew (hw : ∀ a b m, Met.Onto m (walk a b m)) (hk : (h.get new k).isSome) :
    k ∈ (h.walkNew walk old new m k).names := by
  unfold LuaHeap.walkNew
  split
  · rename_i hnone
    rw [hnone] at hk
    cases hk
  · split
    · assumption
    · split
      · exact hw _ _ _ _ List.mem_cons_self
      · exact List.mem_cons_self

/-- What holds after the turn of one name, and stays as the walk goes on, holds after the loop. -/
theorem foldl_reaches {f : Met → Key → Met} (hf : ∀ m k, Met.Onto m (f m k)) {P : Met → Prop}
    (hP : ∀ m m', Met.Onto m m' → P m → P m') {l : List Key} (hk : k ∈ l) :
    ∀ m, (∀ m', Met.Onto m m' → P (f m' k)) → P (l.foldl f m) := by
  induction l with
  | nil => exact absurd hk List.not_mem_nil
  | cons j l ih =>
    intro m hself
    rcases List.mem_cons.1 hk with rfl | hk
    · exact hP _ _ (onto_foldl hf l _) (hself m (Met.Onto.refl m))
    · exact ih hk (f m j) fun m' hm => hself m' ((hf m j).trans hm)

theorem mem_foldl_walkNew (hw : ∀ a b m, Met.Onto m (walk a b m)) {l : List Key} (hmem : k ∈ l)
    (hk : (h.get new k).isSome) : k ∈ (l.foldl (h.walkNew walk old new) m).names :=
  foldl_reaches (onto_walkNew hw) (fun _ _ hm hk => hm k hk) hmem m fun _ _ => mem_walkNew hw hk

/-- A loop of the walk passes over the names that have been met before it. -/
theorem foldl_unmet {f : Met → Key → Met} (hskip : ∀ m k, k ∈ m.names → f m k = m)
    (hf : ∀ m k, Met.Onto m (f m k)) (hm : m.Onto m') (l : List Key) :
    l.foldl f m' = (l.filter fun k => k ∉ m.names).foldl f m' := by
  induction l generalizing m' with
  | nil => rfl
  | cons k l ih =>
    by_cases hk : k ∈ m.names
    · rw [List.filter_cons_of_neg (by simpa using hk), List.foldl_cons, hskip m' k (hm k hk)]
      exact ih hm
    · rw [List.filter_cons_of_pos (by simpa using hk)]
      exact ih (hm.trans (hf m' k))

/-- How many of the names `U` have not been met. -/
def unmet (U : Finset Key) (m : Met) : Nat := (U.filter fun k => k ∉ m.names).card

theorem unmet_le (U : Finset Key) (hm : m.Onto m') : unmet U m' ≤ unmet U m := by
  refine Finset.card_le_card fun k hk => ?_
  rw [Finset.mem_filter] at hk ⊢
  exact ⟨hk.1, fun hc => hk.2 (hm k hc)⟩

theorem card_unlisted_lt {U : Finset Key} {l : List Key} (hU : k ∈ U) (hk : k ∉ l) :
    (U.filter fun j => j ∉ k :: l).card < (U.filter fun j => j ∉ l).card := by
  refine Finset.card_lt_card ⟨fun j hj => ?_, fun hsub => ?_⟩
  · rw [Finset.mem_filter] at hj ⊢
    exact ⟨hj.1, fun hc => hj.2 (List.mem_cons_of_mem k hc)⟩
  · have hmem := hsub (Finset.mem_filter.2 ⟨hU, hk⟩)
    exact (Finset.mem_filter.1 hmem).2 List.mem_cons_self

theorem unmet_cons_lt {U : Finset Key} {x : Ref × Ref} (hU : k ∈ U) (hk : k ∉ m.names) :
    unmet U ((k, x) :: m) < unmet U m := card_unlisted_lt hU hk

end Walk

/-! ## The merge follows the walk -/

/-- The merge has come as far as the walk: the tables were `h` before, and the module has the fields `e`. -/
structure Sim (h : LuaHeap) (e : Fields Key Value) (m : Met) (s : Merge) : Prop where
  env : s.env = e
  visited : s.visited = m.names
  ancestors : s.heap.ancestors = h.ancestors
  strict : s.heap.strict = h.strict
  get : ∀ a k, s.heap.get a k = h.after m a k
  keys : ∀ a, ((s.heap.fields a).keys.filter fun k => k ∉ m.names) = (h.fields a).keys.filter fun k => k ∉ m.names

section Sim

variable {h : LuaHeap} {e : Fields Key Value} {m : Met} {s : Merge} {old new : Ref} {k : Key}

theorem Sim.get_eq (hs : Sim h e m s) (hk : k ∉ m.names) (a : Ref) : s.heap.get a k = h.get a k :=
  (hs.get a k).trans (LuaHeap.after_of_not_mem hk)

theorem Sim.find_eq (hs : Sim h e m s) (hk : k ∉ m.names) (a : Ref) : s.heap.find a k = h.find a k := by
  unfold LuaHeap.find
  rw [hs.ancestors, funext (hs.get_eq hk)]

theorem Sim.index_eq (hs : Sim h e m s) (hstrict : ∀ a, h.strict a = none) (hk : k ∉ m.names) (a : Ref) :
    s.heap.index a k = .ok (h.find a k) := by
  unfold LuaHeap.index
  rw [hs.find_eq hk, hs.strict, hstrict]
  cases h.find a k with
  | none => rfl
  | some v => rfl

theorem filter_names_cons (l : List Key) (x : Key × Ref × Ref) (m : Met) :
    (l.filter fun k => k ∉ Met.names (x :: m)) = (l.filter fun k => k ∉ m.names).filter fun k => k ≠ x.1 := by
  rw [List.filter_filter]
  refine List.filter_congr fun k _ => ?_
  have hmem : k ∈ Met.names (x :: m) ↔ k = x.1 ∨ k ∈ m.names := List.mem_cons
  simp only [hmem, not_or, Bool.decide_and, ne_eq]

/-- A table that stays: its name is visited. -/
theorem Sim.visit (hs : Sim h e m s) (hk : k ∉ m.names) (hw : h.written k old new = none) :
    Sim h e ((k, old, new) :: m) { s with visited := k :: s.visited } where
  env := hs.env
  visited := congrArg (k :: ·) hs.visited
  ancestors := hs.ancestors
  strict := hs.strict
  get a j := by
    show s.heap.get a j = _
    by_cases hj : j = k
    · subst hj
      rw [LuaHeap.after_cons_self, hw, hs.get_eq hk]
      exact (ite_self _).symm
    · rw [LuaHeap.after_cons_of_ne hj, hs.get]
  keys a := by
    rw [filter_names_cons, filter_names_cons]
    exact congrArg _ (hs.keys a)

/-- Any other field is written. -/
theorem Sim.assign (hs : Sim h e m s) (hk : k ∉ m.names) {v : Option Value} (hw : h.written k old new = some v) :
    Sim h e ((k, old, new) :: m) { s with heap := s.heap.set old k v, visited := k :: s.visited } where
  env := hs.env
  visited := congrArg (k :: ·) hs.visited
  ancestors := hs.ancestors
  strict := hs.strict
  get a j := by
    show (s.heap.set old k v).get a j = _
    rw [LuaHeap.get_set]
    by_cases hj : j = k
    · subst hj
      rw [LuaHeap.after_cons_self, hw, hs.get_eq hk]
      exact if_congr (and_iff_left rfl) rfl rfl
    · rw [if_neg fun hc => hj hc.2, LuaHeap.after_cons_of_ne hj, hs.get]
  keys a := by
    show ((s.heap.set old k v).fields a).keys.filter _ = _
    rw [LuaHeap.filter_keys_set (by simp [Met.names]), filter_names_cons, filter_names_cons]
    exact congrArg _ (hs.keys a)

/-- A turn of the first loop, where the recursive calls follow the walk. -/
theorem sim_updateField (hstrict : ∀ a, h.strict a = none) {U : Finset Key}
    (hU : ∀ a, ∀ k ∈ (h.fields a).keys, k ∈ U) {recu : Ref → Ref → LuaM Merge PUnit} {walk : Ref → Ref → Met → Met}
    (ih : ∀ a b m', unmet U m' < unmet U m →
      Spec (Sim h e m') (recu a b) (fun _ => Sim h e (walk a b m')) fun _ => False) :
    Spec (Sim h e m) (Merge.updateField recu old new k) (fun _ => Sim h e (h.walkNew walk old new m k))
      fun _ => False := by
  unfold Merge.updateField
  refine Spec.get_bind fun s hs => ?_
  by_cases hk : k ∈ m.names
  · rw [walkNew_of_mem hk]
    cases s.heap.get new k with
    | none => exact Spec.pure_from hs
    | some v =>
      dsimp only
      rw [hs.visited, if_pos hk]
      exact Spec.pure_from hs
  · rw [hs.get_eq hk]
    cases hnew : h.get new k with
    | none =>
      rw [walkNew_none hnew]
      exact Spec.pure_from hs
    | some v =>
      dsimp only
      have hsome : (h.get new k).isSome := Option.isSome_iff_exists.2 ⟨v, hnew⟩
      rw [if_neg (hs.visited ▸ hk), hs.index_eq hstrict hk]
      refine Spec.bind (R := fun _ t => t = { s with visited := k :: s.visited })
        (Spec.modify fun t ht => ht ▸ rfl) fun _ => Spec.lift_bind ?_
      split
      · rename_i a b hold
        rw [walkNew_tables hk hold hnew]
        refine (ih a b _ (unmet_cons_lt (hU new k (Fields.mem_keys.2 hsome)) hk)).conseq ?_ (fun _ _ => id) fun _ => id
        rintro _ rfl
        exact hs.visit hk (written_tables ⟨a, b, hold, hnew⟩)
      · rename_i hne
        have hb : ¬ BothTables (h.find old k) (h.get new k) := by
          rintro ⟨a, b, hold, hnew'⟩
          exact hne a b hold (Option.some.inj (hnew.symm.trans hnew'))
        rw [walkNew_other hk hsome hb, ← hnew]
        refine Spec.modify ?_
        rintro _ rfl
        exact hs.assign hk (written_other hb)

/-- A turn of the second loop. -/
theorem sim_removeField (hnew : (h.get new k).isSome → k ∈ m.names) :
    Spec (Sim h e m) (Merge.removeField old new k) (fun _ => Sim h e (h.walkOld old new m k)) fun _ => False := by
  unfold Merge.removeField
  refine Spec.get_bind fun s hs => ?_
  by_cases hk : k ∈ m.names
  · rw [walkOld_of_mem hk, hs.visited, if_neg fun hc => hc.1 hk]
    exact Spec.pure_from hs
  · have hnone : h.get new k = none := Option.not_isSome_iff_eq_none.1 fun hc => hk (hnew hc)
    have hw : h.written k old new = some none := by
      rw [written_other, hnone]
      rintro ⟨a, b, -, hb⟩
      rw [hnone] at hb
      cases hb
    unfold LuaHeap.walkOld
    rw [hs.visited, hs.get_eq hk, hnone, if_pos ⟨hk, rfl⟩, if_pos ⟨hk, rfl⟩]
    refine Spec.bind (R := fun _ t => t = { s with visited := k :: s.visited })
      (Spec.modify fun t ht => ht ▸ rfl) fun _ => Spec.modify ?_
    rintro _ rfl
    exact hs.assign hk hw

/-- A loop over the fields of a table goes the way of the walk, when its turns do. -/
theorem sim_loop {f : Key → LuaM Merge PUnit} {g : Met → Key → Met} (hskip : ∀ m k, k ∈ m.names → g m k = m)
    (hg : ∀ m k, Met.Onto m (g m k)) (hs : Sim h e m s) (a : Ref)
    (hf : ∀ m' k, m.Onto m' → Spec (Sim h e m') (f k) (fun _ => Sim h e (g m' k)) fun _ => False) :
    Spec (· = s) ((s.heap.fields a).keys.forM f) (fun _ => Sim h e ((h.fields a).keys.foldl g m)) fun _ => False := by
  have hturns : Spec (fun t => m.Onto m ∧ Sim h e m t) ((s.heap.fields a).keys.forM f)
      (fun _ t => m.Onto ((s.heap.fields a).keys.foldl g m) ∧ Sim h e ((s.heap.fields a).keys.foldl g m) t)
      fun _ => False := by
    refine Spec.forM_foldl (R := fun m' t => m.Onto m' ∧ Sim h e m' t) (fun m' k _ => Spec.of_and fun hon => ?_) m
    exact (hf m' k hon).conseq (fun _ => id) (fun _ _ ht => ⟨hon.trans (hg m' k), ht⟩) fun _ => id
  -- the names that have been met are passed over, and the other ones come in the old order
  rw [foldl_unmet hskip hg (Met.Onto.refl m) (h.fields a).keys, ← hs.keys a,
    ← foldl_unmet hskip hg (Met.Onto.refl m)]
  exact (hturns.from_state ⟨Met.Onto.refl m, hs⟩).conseq (fun _ => id) (fun _ _ ht => ht.2) fun _ => id

theorem sim_updateFields (hstrict : ∀ a, h.strict a = none) {U : Finset Key}
    (hU : ∀ a, ∀ k ∈ (h.fields a).keys, k ∈ U) {recu : Ref → Ref → LuaM Merge PUnit} {walk : Ref → Ref → Met → Met}
    (hw : ∀ a b m, Met.Onto m (walk a b m))
    (ih : ∀ a b m', unmet U m' < unmet U m →
      Spec (Sim h e m') (recu a b) (fun _ => Sim h e (walk a b m')) fun _ => False) (hs : Sim h e m s) :
    Spec (· = s) ((s.heap.fields new).keys.forM (Merge.updateField recu old new))
      (fun _ => Sim h e ((h.fields new).keys.foldl (h.walkNew walk old new) m)) fun _ => False := by
  refine sim_loop (fun _ _ => walkNew_of_mem) (onto_walkNew hw) hs new fun m' k hon => ?_
  exact sim_updateField hstrict hU fun a b m'' hlt => ih a b m'' (Nat.lt_of_lt_of_le hlt (unmet_le U hon))

theorem sim_removeFields (hnew : ∀ k, (h.get new k).isSome → k ∈ m.names) (hs : Sim h e m s) :
    Spec (· = s) ((s.heap.fields old).keys.forM (Merge.removeField old new))
      (fun _ => Sim h e ((h.fields old).keys.foldl (h.walkOld old new) m)) fun _ => False :=
  sim_loop (fun _ _ => walkOld_of_mem) onto_walkOld hs old fun _ k hon => sim_removeField fun hk => hon k (hnew k hk)

/-- `recu` follows the walk, when the stack has room for a call for each name. -/
theorem sim_recu (hstrict : ∀ a, h.strict a = none) {U : Finset Key} (hU : ∀ a, ∀ k ∈ (h.fields a).keys, k ∈ U)
    (depth : Nat) : ∀ old new m, unmet U m < depth →
      Spec (Sim h e m) (Merge.recu depth old new) (fun _ => Sim h e (h.walk depth old new m)) fun _ => False := by
  induction depth with
  | zero => exact fun _ _ m hm => absurd hm (Nat.not_lt_zero _)
  | succ depth ih =>
    intro old new m hm
    unfold Merge.recu LuaHeap.walk
    have hon : ∀ a b m, Met.Onto m (h.walk depth a b m) := onto_walk depth
    refine Spec.get_bind fun s hs => Spec.bind (sim_updateFields hstrict hU hon (fun a b m' hlt => ?_) hs) fun _ => ?_
    · exact ih a b m' (Nat.lt_of_lt_of_le hlt (Nat.le_of_lt_succ hm))
    · refine Spec.get_bind fun t ht => sim_removeFields (fun k hk => ?_) ht
      exact mem_foldl_walkNew hon (Fields.mem_keys.2 hk) hk

end Sim

end RoundGame.Base
