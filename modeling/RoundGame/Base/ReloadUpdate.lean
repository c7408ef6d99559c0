import RoundGame.Base.ReloadMerge

/-!
# What a reload updates

After a reload, each table that the module had before and the new version has, too, should be the same table with the
fields of the new version, and everything else should be the new version's (`Updated`).

This is so iff the new version assigns all names of the module, and each field that has to change is the first one of
its name that the merge meets, whatever table it is in, and does not stand for an inherited table
(`Updates`, `reload_updated_iff`).
-/

namespace RoundGame.Base

open Function Lua

/-- What a field should be, by what it was and what the new version says: a table stays the same table. -/
def merged (old new : Option Value) : Option Value :=
  match old, new with
  | some (.table a), some (.table _) => some (.table a)
  | _, new => new

theorem merged_other {x y : Option Value} (hb : ¬ BothTables x y) : merged x y = y := by
  unfold merged
  split
  · exact absurd ⟨_, _, rfl, rfl⟩ hb
  · rfl

theorem merged_self (x : Option Value) : merged x x = x := by
  unfold merged
  split
  · rfl
  · rfl

/-- A turn of the loop over the module: the walk through its two tables of this name, when there are two. -/
def firstsField (h : LuaHeap) (depth : Nat) (env bak_m : Fields Key Value) (m : Met) (k : Key) : Met :=
  match env.get k, bak_m.get k with
  | some (.table b), some (.table a) => h.walk depth a b m
  | _, _ => m

section Spec

variable (f : Chunk) (s t : LuaState)

/-- What the new version assigns at its top level: `t` is the state when it has run. -/
def newTop (k : Key) : Option Value := if k ∈ f.names then t.env.get k else none

/-- The table `a` of the module, and the table `b` that the new version has in its place. -/
inductive Kept : Ref → Ref → Prop
  | top {k : Key} {a b : Ref} (hold : s.env.get k = some (.table a)) (hnew : newTop f t k = some (.table b)) : Kept a b
  | field {k : Key} {a b a' b' : Ref} (h : Kept a b) (hold : s.heap.get a k = some (.table a'))
      (hnew : t.heap.get b k = some (.table b')) : Kept a' b'

/-- A table of the new version that takes the place of no table. -/
inductive Added : Ref → Prop
  | top {k : Key} {b : Ref} (hold : ∀ a, s.env.get k ≠ some (.table a)) (hnew : newTop f t k = some (.table b)) :
      Added b
  | field {k : Key} {a b b' : Ref} (h : Kept f s t a b) (hold : ∀ a', s.heap.get a k ≠ some (.table a'))
      (hnew : t.heap.get b k = some (.table b')) : Added b'
  | inside {k : Key} {b b' : Ref} (h : Added b) (hnew : t.heap.get b k = some (.table b')) : Added b'

/-- The field `k` of the table `a` should be `v`. -/
inductive Wants : Ref → Key → Option Value → Prop
  | kept {a b : Ref} (k : Key) (h : Kept f s t a b) : Wants a k (merged (s.heap.get a k) (t.heap.get b k))
  | added {b : Ref} (k : Key) (h : Added f s t b) : Wants b k (t.heap.get b k)

/-- The state `u` is that of the module `s`, updated to the new version. -/
structure Updated (u : LuaState) : Prop where
  top : ∀ k, u.env.get k = merged (s.env.get k) (newTop f t k)
  fields : ∀ a k v, Wants f s t a k v → u.heap.get a k = v

/-- The pairs of tables in which a merge first meets each name. -/
def firsts (depth : Nat) : Met := t.env.keys.foldl (firstsField t.heap depth t.env s.env) []

/-- The merge writes the field `k` of `a`: it is the first one of its name, with `b` the new table, and not a table that
stays. -/
def Writes (depth : Nat) (k : Key) (a b : Ref) : Prop :=
  (firsts s t depth).lookup k = some (a, b) ∧ ¬ BothTables (t.heap.find a k) (t.heap.get b k)

/-- The condition. -/
structure Updates (depth : Nat) : Prop where
  /-- The new version assigns all names of the module. -/
  names : ∀ k, (s.env.get k).isSome → k ∈ f.names
  /-- What has to change is written. -/
  changes : ∀ a k v, Wants f s t a k v → t.heap.get a k ≠ v → ∃ b, Writes s t depth k a b ∧ t.heap.get b k = v
  /-- What has to stay is not written, or written as it is. -/
  stays : ∀ a k v, Wants f s t a k v → t.heap.get a k = v → ∀ b, Writes s t depth k a b → t.heap.get b k = v

end Spec

/-! ## The loop over the module -/

section Module

variable {h : LuaHeap} {env bak_m e : Fields Key Value} {m : Met} {depth : Nat} {k : Key}

theorem firstsField_tables {a b : Ref} (hnew : env.get k = some (.table b)) (hold : bak_m.get k = some (.table a)) :
    firstsField h depth env bak_m m k = h.walk depth a b m := by
  unfold firstsField
  rw [hnew, hold]

theorem firstsField_other (hb : ¬ BothTables (bak_m.get k) (env.get k)) : firstsField h depth env bak_m m k = m := by
  unfold firstsField
  split
  · rename_i a b hnew hold
    exact absurd ⟨_, _, hold, hnew⟩ hb
  · rfl

theorem Sim.putEnv {s : Merge} (hs : Sim h e m s) (k : Key) (v : Option Value) :
    Sim h (e.put k v) m { s with env := s.env.put k v } :=
  { hs with env := congrArg (Fields.put k v) hs.env }

/-- The names `l` are still to come. -/
structure SimModule (h : LuaHeap) (env bak_m : Fields Key Value) (l : List Key) (m : Met) (s : Merge) : Prop where
  sim : Sim h s.env m s
  rest : ∀ k ∈ l, s.env.get k = env.get k
  done : ∀ k, k ∉ l → s.env.get k = merged (bak_m.get k) (env.get k)

theorem sim_mergeField (hstrict : ∀ a, h.strict a = none) {U : Finset Key} (hU : ∀ a, ∀ k ∈ (h.fields a).keys, k ∈ U)
    (hdepth : U.card < depth) {l : List Key} (hk : k ∉ l) :
    Spec (SimModule h env bak_m (k :: l) m) (Merge.mergeField depth bak_m k)
      (fun _ => SimModule h env bak_m l (firstsField h depth env bak_m m k)) fun _ => False := by
  unfold Merge.mergeField
  refine Spec.get_bind fun s hs => ?_
  have hdone : ∀ j, j ∉ l → j ≠ k → s.env.get j = merged (bak_m.get j) (env.get j) := fun j hj hne =>
    hs.done j fun hmem => (List.mem_cons.1 hmem).elim hne hj
  rw [hs.rest k List.mem_cons_self]
  split
  · rename_i b a hnew hold
    rw [firstsField_tables hnew hold]
    have hunmet : unmet U m < depth := Nat.lt_of_le_of_lt (Finset.card_filter_le U _) hdepth
    refine Spec.bind (R := fun _ => Sim h s.env (h.walk depth a b m)) ?_ fun _ => Spec.modify fun t ht => ?_
    · exact (sim_recu hstrict hU depth a b m hunmet).from_state hs.sim
    · refine ⟨Sim.putEnv (ht.env ▸ ht) k _, fun j hj => ?_, fun j hj => ?_⟩
      · have hne : j ≠ k := fun hjk => hk (hjk ▸ hj)
        exact (Fields.get_put_of_ne hne _).trans (ht.env ▸ hs.rest j (List.mem_cons_of_mem k hj))
      · by_cases hjk : j = k
        · subst hjk
          rw [hnew, hold]
          exact Fields.get_put_self _
        · exact (Fields.get_put_of_ne hjk _).trans (ht.env ▸ hdone j hj hjk)
  · rename_i hne
    have hb : ¬ BothTables (bak_m.get k) (env.get k) := by
      rintro ⟨a, b, hold, hnew⟩
      exact hne b a hnew hold
    rw [firstsField_other hb]
    refine Spec.pure fun t ht => ?_
    subst ht
    refine ⟨hs.sim, fun j hj => hs.rest j (List.mem_cons_of_mem k hj), fun j hj => ?_⟩
    by_cases hjk : j = k
    · subst hjk
      rw [merged_other hb]
      exact hs.rest j List.mem_cons_self
    · exact hdone j hj hjk

theorem sim_mergeFields (hstrict : ∀ a, h.strict a = none) {U : Finset Key}
    (hU : ∀ a, ∀ k ∈ (h.fields a).keys, k ∈ U) (hdepth : U.card < depth) {l : List Key} (hl : l.Nodup) :
    Spec (SimModule h env bak_m l m) (l.forM (Merge.mergeField depth bak_m))
      (fun _ => SimModule h env bak_m [] (l.foldl (firstsField h depth env bak_m) m)) fun _ => False := by
  induction l generalizing m with
  | nil => exact Spec.pure fun _ => id
  | cons k l ih =>
    obtain ⟨hk, hl⟩ := List.nodup_cons.1 hl
    exact Spec.bind (sim_mergeField hstrict hU hdepth hk) fun _ => ih hl

theorem sim_start (h : LuaHeap) (env bak_m : Fields Key Value) :
    SimModule h env bak_m env.keys [] ⟨⟨env, h⟩, []⟩ where
  sim := ⟨rfl, rfl, rfl, rfl, fun _ _ => rfl, fun _ => rfl⟩
  rest _ _ := rfl
  done k hk := by
    have hnone : env.get k = none := Option.not_isSome_iff_eq_none.1 fun hc => hk (Fields.mem_keys.2 hc)
    rw [hnone]
    exact (merged_other fun ⟨_, _, _, hc⟩ => nomatch hc).symm

/-- The merge returns; what the module has then, and what the tables are. -/
theorem sim_merge (hstrict : ∀ a, h.strict a = none) {U : Finset Key} (hU : ∀ a, ∀ k ∈ (h.fields a).keys, k ∈ U)
    (hdepth : U.card < depth) : Spec (· = ⟨⟨env, h⟩, []⟩) (Merge.merge depth bak_m)
      (fun _ => SimModule h env bak_m [] (env.keys.foldl (firstsField h depth env bak_m) [])) fun _ => False := by
  unfold Merge.merge
  refine Spec.get_bind fun s hs => ?_
  subst hs
  exact (sim_mergeFields hstrict hU hdepth env.nodup).from_state (sim_start h env bak_m)

end Module

/-! ## The reload -/

section Reload

variable {f : Chunk} {s t u : LuaState} {depth : Nat}

/-- What a reload leaves, when the new version has run to `t`. -/
structure Merged (s t : LuaState) (depth : Nat) (u : LuaState) : Prop where
  env : ∀ k, u.env.get k = merged (s.env.get k) (t.env.get k)
  get : ∀ a k, u.heap.get a k = t.heap.after (firsts s t depth) a k

/-- A version that cannot run raises; otherwise the merge decides. -/
theorem reload_chunk (depth : Nat) (f : Chunk) (s : LuaState) : (reload depth (.chunk f)).exec s =
    match f.run.exec s with
      | (.error e, t) => (.error e, t)
      | (.ok _, t) =>
        match (Merge.merge depth s.env).exec ⟨t, []⟩ with
          | (.error msg, r) => (.ok (.fail msg), r.toLuaState)
          | (.ok _, r) => (.ok .success, r.toLuaState) := by
  unfold reload
  rw [LuaM.exec_bind, LuaM.exec_get]
  dsimp only
  rw [LuaM.exec_bind, show loadfileEx (.chunk f) = .ok f from rfl, LuaM.exec_lift]
  dsimp only
  rw [LuaM.exec_bind]
  rcases f.run.exec s with ⟨ret, t⟩
  cases ret with
  | error e => rfl
  | ok _ =>
    dsimp only
    rw [LuaM.exec_bind, LuaM.exec_get]
    dsimp only [tableCopy]
    rcases (Merge.merge depth s.env).exec ⟨t, []⟩ with ⟨ret, r⟩
    cases ret with
    | error msg => rfl
    | ok _ => rfl

theorem reload_exec (hrun : f.run.exec s = (.ok ⟨⟩, t)) : (reload depth (.chunk f)).exec s =
    match (Merge.merge depth s.env).exec ⟨t, []⟩ with
      | (.error msg, r) => (.ok (.fail msg), r.toLuaState)
      | (.ok _, r) => (.ok .success, r.toLuaState) := by
  rw [reload_chunk, hrun]

/-- With room for a call for each name, the reload of a version that runs comes to its end. -/
theorem reload_merged (hrun : f.run.exec s = (.ok ⟨⟩, t)) (hstrict : ∀ a, t.heap.strict a = none) :
    ∃ n, ∀ depth, n ≤ depth → ∃ u, (reload depth (.chunk f)).exec s = (.ok .success, u) ∧ Merged s t depth u := by
  obtain ⟨U, hU⟩ := t.heap.finite
  refine ⟨U.card + 1, fun depth hdepth => ?_⟩
  have hmerge : Spec (· = ⟨t, []⟩) (Merge.merge depth s.env)
      (fun _ => SimModule t.heap t.env s.env [] (firsts s t depth)) fun _ => False := sim_merge hstrict hU hdepth
  have hr := hmerge _ rfl
  rw [reload_exec hrun]
  revert hr
  cases (Merge.merge depth s.env).exec ⟨t, []⟩ with
  | mk ret r =>
    cases ret with
    | error msg => exact False.elim
    | ok _ => exact fun hr => ⟨r.toLuaState, rfl, fun k => hr.done k List.not_mem_nil, hr.sim.get⟩

theorem after_writes {a b : Ref} {k : Key} (hw : Writes s t depth k a b) :
    t.heap.after (firsts s t depth) a k = t.heap.get b k := by
  unfold LuaHeap.after
  rw [hw.1]
  dsimp only
  rw [if_pos rfl, written_other hw.2]
  rfl

theorem after_stays {a : Ref} {k : Key} (hw : ∀ b, ¬ Writes s t depth k a b) :
    t.heap.after (firsts s t depth) a k = t.heap.get a k := by
  unfold LuaHeap.after
  split
  · rfl
  · rename_i old new hfirst
    by_cases ha : a = old
    · subst ha
      have hb : BothTables (t.heap.find a k) (t.heap.get new k) := Classical.not_not.1 fun hb => hw new ⟨hfirst, hb⟩
      rw [if_pos rfl, written_tables hb]
      rfl
    · rw [if_neg ha]

/-- The names of the module. -/
theorem top_iff (hrun : f.run.exec s = (.ok ⟨⟩, t)) (hu : Merged s t depth u) :
    (∀ k, u.env.get k = merged (s.env.get k) (newTop f t k)) ↔ ∀ k, (s.env.get k).isSome → k ∈ f.names := by
  have hframe : ∀ k, k ∉ f.names → t.env.get k = s.env.get k := by
    have hafter : safeCall f.run s = t := congrArg Prod.snd hrun
    exact hafter ▸ f.frame s
  refine ⟨fun h k hk => ?_, fun h k => ?_⟩
  · by_contra hmem
    have hk' := h k
    unfold newTop at hk'
    rw [hu.env, hframe k hmem, merged_self, if_neg hmem, merged_other fun ⟨_, _, _, hc⟩ => nomatch hc] at hk'
    rw [hk'] at hk
    cases hk
  · rw [hu.env]
    unfold newTop
    by_cases hmem : k ∈ f.names
    · rw [if_pos hmem]
    · have hnone : s.env.get k = none := Option.not_isSome_iff_eq_none.1 fun hk => hmem (h k hk)
      rw [if_neg hmem, hframe k hmem, hnone]

/-- The fields of the tables. -/
theorem fields_iff (hu : Merged s t depth u) : (∀ a k v, Wants f s t a k v → u.heap.get a k = v) ↔
    (∀ a k v, Wants f s t a k v → t.heap.get a k ≠ v → ∃ b, Writes s t depth k a b ∧ t.heap.get b k = v) ∧
      ∀ a k v, Wants f s t a k v → t.heap.get a k = v → ∀ b, Writes s t depth k a b → t.heap.get b k = v := by
  refine ⟨fun h => ⟨fun a k v hv hne => ?_, fun a k v hv _ b hw => ?_⟩, fun ⟨hchanges, hstays⟩ a k v hv => ?_⟩
  · by_cases hw : ∃ b, Writes s t depth k a b
    · obtain ⟨b, hb⟩ := hw
      exact ⟨b, hb, (after_writes hb).symm.trans ((hu.get a k).symm.trans (h a k v hv))⟩
    · have hstay := after_stays fun b hb => hw ⟨b, hb⟩
      exact absurd (hstay.symm.trans ((hu.get a k).symm.trans (h a k v hv))) hne
  · exact (after_writes hw).symm.trans ((hu.get a k).symm.trans (h a k v hv))
  · rw [hu.get]
    by_cases hw : ∃ b, Writes s t depth k a b
    · obtain ⟨b, hb⟩ := hw
      by_cases heq : t.heap.get a k = v
      · exact (after_writes hb).trans (hstays a k v hv heq b hb)
      · obtain ⟨b', hb', hval⟩ := hchanges a k v hv heq
        exact (after_writes hb').trans hval
    · have hstay := after_stays fun b hb => hw ⟨b, hb⟩
      rw [hstay]
      by_contra hne
      obtain ⟨b, hb, -⟩ := hchanges a k v hv hne
      exact hw ⟨b, hb⟩

theorem updated_iff (hrun : f.run.exec s = (.ok ⟨⟩, t)) (hu : Merged s t depth u) :
    Updated f s t u ↔ Updates f s t depth := by
  refine ⟨fun h => ?_, fun h => ?_⟩
  · obtain ⟨hchanges, hstays⟩ := (fields_iff hu).1 h.fields
    exact ⟨(top_iff hrun hu).1 h.top, hchanges, hstays⟩
  · exact ⟨(top_iff hrun hu).2 h.names, (fields_iff hu).2 ⟨h.changes, h.stays⟩⟩

/-- A reload of a version that runs comes to its end, and it has updated the module iff the condition holds. -/
theorem reload_updated_iff (f : Chunk) (s t : LuaState) (hrun : f.run.exec s = (.ok ⟨⟩, t))
    (hstrict : ∀ a, t.heap.strict a = none) :
    ∃ n, ∀ depth, n ≤ depth → ∃ u, (reload depth (.chunk f)).exec s = (.ok .success, u) ∧
      (Updated f s t u ↔ Updates f s t depth) := by
  obtain ⟨n, hn⟩ := reload_merged hrun hstrict
  refine ⟨n, fun depth hdepth => ?_⟩
  obtain ⟨u, hexec, hu⟩ := hn depth hdepth
  exact ⟨u, hexec, updated_iff hrun hu⟩

end Reload

/-! ## Files that define classes -/

namespace LuaState

def empty : LuaState := ⟨Fields.empty, fun _ => Fields.empty, fun _ => [], fun _ => none, ∅, fun _ _ h => nomatch h⟩

/-- `CName = {}`, which is the table `a`; `CName.__index = CName`; `function CName:New(...)`, which is `id`. -/
def defineClass (s : LuaState) (c : String × Ref × Nat) : LuaState where
  env := s.env.put (.str c.1) (some (.table c.2.1))
  heap := (s.heap.set c.2.1 (.str "__index") (some (.table c.2.1))).set c.2.1 (.str "New") (some (.func c.2.2))

end LuaState

/-- A file with the classes `l`. -/
def classFile (l : List (String × Ref × Nat)) : Chunk where
  run := modify fun s => l.foldl LuaState.defineClass s
  names := l.map fun c => .str c.1
  frame s k hk := by
    show (l.foldl LuaState.defineClass s).env.get k = _
    induction l generalizing s with
    | nil => rfl
    | cons c l ih =>
      rw [List.map_cons, List.mem_cons, not_or] at hk
      exact (ih _ hk.2).trans (Fields.get_put_of_ne hk.1 _)

/-- Files with the classes `l` have been loaded. -/
def loaded (l : List (String × Ref × Nat)) : LuaState := l.foldl LuaState.defineClass LuaState.empty

/-- A file with one class, and a new version of it. -/
def warObj : List (String × Ref × Nat) := [("CWar", 1, 1)]

def warObj' : List (String × Ref × Nat) := [("CWar", 2, 2)]

/-- A file with two classes. -/
def gateObj : List (String × Ref × Nat) := [("CGateMgr", 1, 1), ("CGateObj", 2, 2)]

def gateObj' : List (String × Ref × Nat) := [("CGateMgr", 3, 3), ("CGateObj", 4, 4)]

section OneClass

variable {a b : Ref} {k : Key} {v : Option Value} {depth : Nat}

theorem get_defineClass (s : LuaState) (c : String × Ref × Nat) : (s.defineClass c).heap.get c.2.1 k =
    if k = .str "New" then some (.func c.2.2)
    else if k = .str "__index" then some (.table c.2.1) else s.heap.get c.2.1 k := by
  unfold LuaState.defineClass
  rw [LuaHeap.get_set, LuaHeap.get_set, if_congr (and_iff_right rfl) rfl (if_congr (and_iff_right rfl) rfl rfl)]

theorem get_defineClass_of_ne (s : LuaState) {c : String × Ref × Nat} (h : a ≠ c.2.1) :
    (s.defineClass c).heap.get a k = s.heap.get a k := by
  unfold LuaState.defineClass
  rw [LuaHeap.get_set, LuaHeap.get_set, if_neg fun hc => h hc.1, if_neg fun hc => h hc.1]

theorem get_warObj : (loaded warObj).heap.get 1 k =
    if k = .str "New" then some (.func 1) else if k = .str "__index" then some (.table 1) else none :=
  get_defineClass _ _

theorem get_warObj_old : (loaded (warObj ++ warObj')).heap.get 1 k = (loaded warObj).heap.get 1 k :=
  get_defineClass_of_ne _ (by decide)

theorem get_warObj_new : (loaded (warObj ++ warObj')).heap.get 2 k =
    if k = .str "New" then some (.func 2) else if k = .str "__index" then some (.table 2) else none :=
  get_defineClass _ _

theorem env_warObj (h : ((loaded warObj).env.get k).isSome) : k = .str "CWar" := by
  by_contra hk
  rw [show (loaded warObj).env.get k = none from Fields.get_put_of_ne hk _] at h
  cases h

/-- The only tables in the fields of the class are the class itself. -/
theorem warObj_table (h : (loaded (warObj ++ warObj')).heap.get 2 k = some (.table b)) :
    k = .str "__index" ∧ b = 2 := by
  rw [get_warObj_new] at h
  split at h
  · cases h
  · split at h
    · rename_i hk
      exact ⟨hk, (Value.table.inj (Option.some.inj h)).symm⟩
    · cases h

theorem kept_warObj (h : Kept (classFile warObj') (loaded warObj) (loaded (warObj ++ warObj')) a b) :
    a = 1 ∧ b = 2 := by
  induction h with
  | top hold hnew =>
    have hk := env_warObj (Option.isSome_iff_exists.2 ⟨_, hold⟩)
    subst hk
    exact ⟨(Value.table.inj (Option.some.inj hold)).symm, (Value.table.inj (Option.some.inj hnew)).symm⟩
  | field h hold hnew ih =>
    obtain ⟨rfl, rfl⟩ := ih
    obtain ⟨rfl, rfl⟩ := warObj_table hnew
    exact ⟨(Value.table.inj (Option.some.inj hold)).symm, rfl⟩

theorem not_added_warObj : ¬ Added (classFile warObj') (loaded warObj) (loaded (warObj ++ warObj')) b := by
  intro h
  induction h with
  | top hold hnew =>
    unfold newTop at hnew
    split at hnew
    · rename_i hk
      obtain rfl := List.mem_singleton.1 hk
      exact hold 1 rfl
    · cases hnew
  | field h hold hnew =>
    obtain ⟨rfl, rfl⟩ := kept_warObj h
    obtain ⟨rfl, rfl⟩ := warObj_table hnew
    exact hold 1 rfl
  | inside h hnew ih => exact ih

/-- What the one class should have. -/
theorem wants_warObj (h : Wants (classFile warObj') (loaded warObj) (loaded (warObj ++ warObj')) a k v) :
    a = 1 ∧ v = if k = .str "New" then some (.func 2) else (loaded warObj).heap.get 1 k := by
  cases h with
  | added k h => exact absurd h not_added_warObj
  | kept k h =>
    obtain ⟨rfl, rfl⟩ := kept_warObj h
    refine ⟨rfl, ?_⟩
    rw [get_warObj, get_warObj_new]
    by_cases hnew : k = .str "New"
    · rw [if_pos hnew, if_pos hnew, if_pos hnew]
      rfl
    · rw [if_neg hnew, if_neg hnew, if_neg hnew]
      by_cases hindex : k = .str "__index"
      · rw [if_pos hindex, if_pos hindex]
        rfl
      · rw [if_neg hindex, if_neg hindex]
        rfl

theorem firsts_warObj (depth : Nat) : firsts (loaded warObj) (loaded (warObj ++ warObj')) (depth + 2) =
    [(.str "New", 1, 2), (.str "__index", 1, 2)] := rfl

theorem writes_warObj (h : Writes (loaded warObj) (loaded (warObj ++ warObj')) (depth + 2) k a b) :
    k = .str "New" ∧ b = 2 := by
  obtain ⟨hfirst, hb⟩ := h
  rw [firsts_warObj, List.lookup_cons] at hfirst
  split at hfirst
  · rename_i hk
    exact ⟨beq_iff_eq.1 hk, (congrArg Prod.snd (Option.some.inj hfirst)).symm⟩
  · rw [List.lookup_cons] at hfirst
    split at hfirst
    · rename_i hk
      obtain rfl := beq_iff_eq.1 hk
      obtain ⟨rfl, rfl⟩ := Prod.mk.inj (Option.some.inj hfirst)
      exact absurd ⟨1, 2, rfl, rfl⟩ hb
    · cases hfirst

theorem updates_warObj (depth : Nat) :
    Updates (classFile warObj') (loaded warObj) (loaded (warObj ++ warObj')) (depth + 2) where
  names k hk := by
    rw [env_warObj hk]
    exact List.mem_singleton_self _
  changes a k v hv hne := by
    obtain ⟨rfl, rfl⟩ := wants_warObj hv
    by_cases hk : k = .str "New"
    · subst hk
      refine ⟨2, ⟨?_, fun ⟨_, _, _, hc⟩ => nomatch hc⟩, rfl⟩
      rw [firsts_warObj]
      rfl
    · rw [if_neg hk] at hne
      exact absurd get_warObj_old hne
  stays a k v hv _ b hw := by
    obtain ⟨rfl, rfl⟩ := wants_warObj hv
    obtain ⟨rfl, rfl⟩ := writes_warObj hw
    rfl

end OneClass

/-- One class is updated. -/
theorem reload_updated_warObj : ∃ n, ∀ depth, n ≤ depth → ∃ u,
    (reload depth (.chunk (classFile warObj'))).exec (loaded warObj) = (.ok .success, u) ∧
      Updated (classFile warObj') (loaded warObj) (loaded (warObj ++ warObj')) u := by
  obtain ⟨n, hn⟩ := reload_updated_iff (classFile warObj') (loaded warObj) (loaded (warObj ++ warObj')) rfl
    fun _ => rfl
  refine ⟨n + 2, fun depth hdepth => ?_⟩
  obtain ⟨d, rfl⟩ := Nat.exists_eq_add_of_le' (Nat.le_trans (Nat.le_add_left 2 n) hdepth)
  obtain ⟨u, hexec, hiff⟩ := hn (d + 2) (Nat.le_trans (Nat.le_add_right n 2) hdepth)
  exact ⟨u, hexec, hiff.2 (updates_warObj d)⟩

/-- Two classes are not: `CGateObj` keeps its `New`, because there is a `New` in `CGateMgr`. -/
theorem not_reload_updated : ¬ ∃ n, ∀ depth, n ≤ depth → ∃ u,
    (reload depth (.chunk (classFile gateObj'))).exec (loaded gateObj) = (.ok .success, u) ∧
      Updated (classFile gateObj') (loaded gateObj) (loaded (gateObj ++ gateObj')) u := by
  rintro ⟨n, hn⟩
  obtain ⟨u, hexec, hu⟩ := hn (n + 2) (Nat.le_add_right n 2)
  have hstate : ((reload (n + 2) (.chunk (classFile gateObj'))).exec (loaded gateObj)).2 = u :=
    congrArg Prod.snd hexec
  have hold : u.heap.get 2 (.str "New") = some (.func 2) := by
    rw [← hstate]
    rfl
  have hkept : Kept (classFile gateObj') (loaded gateObj) (loaded (gateObj ++ gateObj')) 2 4 :=
    Kept.top (k := .str "CGateObj") rfl rfl
  have hnew : u.heap.get 2 (.str "New") = some (.func 4) := hu.fields _ _ _ (Wants.kept _ hkept)
  rw [hold] at hnew
  cases hnew

end RoundGame.Base
