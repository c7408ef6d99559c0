import RoundGame.Base.ReloadUpdate

/-!
# What a failed reload leaves

A reload fails when there is no file or it does not compile, when the new version raises, and when the merge raises.
It puts nothing back. So the module is as before iff nothing had happened to it yet: the new version was not run, or it
had changed nothing when it raised (`Safe`, `failed_unchanged_iff`).

After a failed merge it never is. The merge of a table with itself does not raise (`recu_self`); so the table in which
it raised was a new one, and under its name the module has the new one still.
-/

namespace RoundGame.Base

open Function Lua

/-- The tables of the module: those that its fields hold, the tables in these, and so on. -/
inductive Reach (s : LuaState) : Ref → Prop
  | top {k : Key} {a : Ref} (h : s.env.get k = some (.table a)) : Reach s a
  | field {k : Key} {a b : Ref} (ha : Reach s a) (h : s.heap.get a k = some (.table b)) : Reach s b

/-- The module and its tables are in `u` as they are in `s`. -/
structure Unchanged (s u : LuaState) : Prop where
  env : ∀ k, u.env.get k = s.env.get k
  fields : ∀ a, Reach s a → ∀ k, u.heap.get a k = s.heap.get a k

theorem Unchanged.refl (s : LuaState) : Unchanged s s := ⟨fun _ => rfl, fun _ _ _ => rfl⟩

/-- The reload raises, or prints that it failed. -/
def Failed : Except String Report → Prop
  | .error _ => True
  | .ok (.fail _) => True
  | .ok .success => False

/-- When the reload of the file fails, nothing has happened to the module yet. -/
inductive Safe (s : LuaState) : File → Prop
  | missing : Safe s .missing
  | malformed (e : String) : Safe s (.malformed e)
  | raises {f : Chunk} {e : String} {t : LuaState} (hrun : f.run.exec s = (.error e, t)) (h : Unchanged s t) :
      Safe s (.chunk f)

/-! ## The merge -/

section Merge

variable {U : Finset Key} {e : Fields Key Value} {s : Merge} {a old new : Ref} {k : Key} {v : Option Value}
variable {n depth : Nat}

/-- The fields have the names `U`, and the module has the fields `e`. -/
structure Within (U : Finset Key) (e : Fields Key Value) (s : Merge) : Prop where
  env : s.env = e
  names : ∀ a k, (s.heap.get a k).isSome → k ∈ U

theorem Within.visit (hs : Within U e s) (k : Key) : Within U e { s with visited := k :: s.visited } :=
  ⟨hs.env, hs.names⟩

theorem Within.assign (hs : Within U e s) (hk : k ∈ U) (a : Ref) (v : Option Value) :
    Within U e { s with heap := s.heap.set a k v } where
  env := hs.env
  names b j hj := by
    rw [LuaHeap.get_set] at hj
    split at hj
    · rename_i h
      exact h.2 ▸ hk
    · exact hs.names b j hj

theorem Within.mem (hs : Within U e s) (hk : k ∈ (s.heap.fields a).keys) : k ∈ U :=
  hs.names a k (Fields.mem_keys.1 hk)

theorem within_visit (k : Key) : Spec (Within U e) (Merge.visit k) (fun _ => Within U e) (Within U e) :=
  Spec.modify fun _ hs => hs.visit k

theorem within_assign (hk : k ∈ U) (a : Ref) (v : Option Value) :
    Spec (Within U e) (Merge.assign a k v) (fun _ => Within U e) (Within U e) :=
  Spec.modify fun _ hs => hs.assign hk a v

theorem within_updateField {recu : Ref → Ref → LuaM Merge PUnit}
    (ih : ∀ a b, Spec (Within U e) (recu a b) (fun _ => Within U e) (Within U e)) :
    Spec (Within U e) (Merge.updateField recu old new k) (fun _ => Within U e) (Within U e) := by
  unfold Merge.updateField
  refine Spec.get_bind fun s hs => ?_
  cases hnew : s.heap.get new k with
  | none => exact Spec.pure_from hs
  | some v =>
    have hk : k ∈ U := hs.names new k (Option.isSome_iff_exists.2 ⟨v, hnew⟩)
    dsimp only
    split
    · exact Spec.pure_from hs
    · refine Spec.bind ((within_visit k).from_state hs) fun _ => ?_
      cases s.heap.index old k with
      | error err => exact Spec.throw fun _ => id
      | ok x =>
        refine Spec.lift_bind ?_
        split
        · exact ih _ _
        · exact within_assign hk old _

theorem within_removeField (hk : k ∈ U) :
    Spec (Within U e) (Merge.removeField old new k) (fun _ => Within U e) (Within U e) := by
  unfold Merge.removeField
  refine Spec.get_bind fun s hs => ?_
  split
  · refine Spec.bind ((within_visit k).from_state hs) fun _ => ?_
    exact within_assign hk old none
  · exact Spec.pure_from hs

/-- Whatever happens in `recu`, it leaves the fields of the module, and makes no new names. -/
theorem within_recu (depth : Nat) :
    ∀ old new, Spec (Within U e) (Merge.recu depth old new) (fun _ => Within U e) (Within U e) := by
  induction depth with
  | zero => exact fun _ _ => Spec.throw fun _ => id
  | succ depth ih =>
    intro old new
    unfold Merge.recu
    refine Spec.get_bind fun s hs => Spec.bind (R := fun _ => Within U e) ?_ fun _ => ?_
    · exact (Spec.forM fun k _ => within_updateField ih).from_state hs
    · refine Spec.get_bind fun t ht => ?_
      exact (Spec.forM fun k hk => within_removeField (ht.mem hk)).from_state ht

/-- Fewer than `n` of the names `U` have not been visited. -/
structure Room (U : Finset Key) (e : Fields Key Value) (n : Nat) (s : Merge) : Prop extends Within U e s where
  unvisited : (U.filter fun k => k ∉ s.visited).card < n

theorem Room.visit (hs : Room U e (n + 1) s) (hU : k ∈ U) (hk : k ∉ s.visited) :
    Room U e n { s with visited := k :: s.visited } where
  toWithin := hs.toWithin.visit k
  unvisited := Nat.lt_of_lt_of_le (card_unlisted_lt hU hk) (Nat.le_of_lt_succ hs.unvisited)

theorem Room.succ (hs : Room U e n s) : Room U e (n + 1) s := ⟨hs.toWithin, Nat.lt_succ_of_lt hs.unvisited⟩

theorem Room.assign (hs : Room U e n s) (hk : k ∈ U) (a : Ref) (v : Option Value) :
    Room U e n { s with heap := s.heap.set a k v } := ⟨hs.toWithin.assign hk a v, hs.unvisited⟩

/-- A field of the table itself is there, so no metamethod is called. -/
theorem index_of_get {h : LuaHeap} {v : Value} (hget : h.get a k = some v) : h.index a k = .ok (some v) := by
  have hfind : h.find a k = some v := by
    unfold LuaHeap.find
    rw [List.findSome?_cons, hget]
  unfold LuaHeap.index
  rw [hfind]

theorem room_updateField {recu : Ref → Ref → LuaM Merge PUnit}
    (ih : ∀ b, Spec (Room U e n) (recu b b) (fun _ => Room U e n) fun _ => False) :
    Spec (Room U e (n + 1)) (Merge.updateField recu a a k) (fun _ => Room U e (n + 1)) fun _ => False := by
  unfold Merge.updateField
  refine Spec.get_bind fun s hs => ?_
  cases hget : s.heap.get a k with
  | none => exact Spec.pure_from hs
  | some v =>
    have hk : k ∈ U := hs.names a k (Option.isSome_iff_exists.2 ⟨v, hget⟩)
    dsimp only
    split
    · exact Spec.pure_from hs
    · rename_i hvisited
      rw [index_of_get hget]
      refine Spec.bind (R := fun _ => Room U e n) (Spec.modify fun t ht => ht ▸ hs.visit hk hvisited) fun _ => ?_
      refine Spec.lift_bind ?_
      split
      · rename_i b c hb
        obtain rfl := Value.table.inj (Option.some.inj hb)
        exact (ih _).conseq (fun _ => id) (fun _ _ => Room.succ) fun _ => id
      · exact Spec.modify fun t ht => (ht.assign hk a _).succ

theorem room_removeField (hk : k ∈ U) :
    Spec (Room U e (n + 1)) (Merge.removeField old new k) (fun _ => Room U e (n + 1)) fun _ => False := by
  unfold Merge.removeField
  refine Spec.get_bind fun s hs => ?_
  split
  · rename_i h
    refine Spec.bind (R := fun _ => Room U e n) (Spec.modify fun t ht => ht ▸ hs.visit hk h.1) fun _ => ?_
    exact Spec.modify fun t ht => (ht.assign hk old none).succ
  · exact Spec.pure_from hs

/-- The merge of a table with itself does not raise. -/
theorem recu_self (n : Nat) : ∀ a, Spec (Room U e n) (Merge.recu n a a) (fun _ => Room U e n) fun _ => False := by
  induction n with
  | zero => exact fun a s hs => absurd hs.unvisited (Nat.not_lt_zero _)
  | succ n ih =>
    intro a
    unfold Merge.recu
    refine Spec.get_bind fun s hs => Spec.bind (R := fun _ => Room U e (n + 1)) ?_ fun _ => ?_
    · exact (Spec.forM fun k _ => room_updateField ih).from_state hs
    · refine Spec.get_bind fun t ht => ?_
      exact (Spec.forM fun k hk => room_removeField (ht.mem hk)).from_state ht

/-- When the merge raises, the table at which it did is a new one, and the module has it still. -/
theorem mergeField_raises (hdepth : U.card < depth) (bak_m : Fields Key Value) (k : Key) :
    Spec (fun s => Within U s.env s) (Merge.mergeField depth bak_m k) (fun _ s => Within U s.env s)
      fun s => ∃ k, s.env.get k ≠ bak_m.get k := by
  unfold Merge.mergeField
  refine Spec.get_bind fun s hs => ?_
  split
  · rename_i b a hnew hold
    refine Spec.bind (R := fun _ => Within U s.env) ?_ fun _ => Spec.modify fun t ht => ⟨rfl, ht.names⟩
    by_cases hab : a = b
    · subst hab
      have hroom : Room U s.env depth s := ⟨hs, Nat.lt_of_le_of_lt (Finset.card_filter_le U _) hdepth⟩
      exact (recu_self depth a).conseq (fun t ht => ht ▸ hroom) (fun _ _ ht => ht.toWithin) fun _ => False.elim
    · refine (within_recu depth a b).conseq (fun t ht => ht ▸ hs) (fun _ _ => id) fun t ht => ⟨k, fun heq => hab ?_⟩
      rw [ht.env, hnew, hold] at heq
      exact (Value.table.inj (Option.some.inj heq)).symm
  · exact Spec.pure_from hs

theorem merge_raises (hdepth : U.card < depth) (bak_m : Fields Key Value) :
    Spec (fun s => Within U s.env s) (Merge.merge depth bak_m) (fun _ s => Within U s.env s)
      fun s => ∃ k, s.env.get k ≠ bak_m.get k := by
  unfold Merge.merge
  refine Spec.get_bind fun s hs => ?_
  exact (Spec.forM fun k _ => mergeField_raises hdepth bak_m k).from_state hs

end Merge

/-! ## The reload -/

section Reload

variable {f : Chunk} {s t : LuaState} {e msg : String} {r : Merge} {depth : Nat}

theorem reload_raised (hrun : f.run.exec s = (.error e, t)) : (reload depth (.chunk f)).exec s = (.error e, t) := by
  rw [reload_chunk, hrun]

/-- A failed merge has changed the module. -/
theorem not_unchanged_merge {U : Finset Key} (hU : ∀ a, ∀ k ∈ (t.heap.fields a).keys, k ∈ U) (hdepth : U.card < depth)
    (hmerge : (Merge.merge depth s.env).exec ⟨t, []⟩ = (.error msg, r)) : ¬ Unchanged s r.toLuaState := by
  intro h
  have hraise := merge_raises hdepth s.env ⟨t, []⟩ ⟨rfl, fun a k hk => hU a k (Fields.mem_keys.2 hk)⟩
  rw [hmerge] at hraise
  obtain ⟨k, hk⟩ := hraise
  exact hk (h.env k)

/-- The metamethod of an old class raises for a field that is new. -/
example : (((reload (depth + 1) (.chunk (classFile warObj'))).exec
    ⟨Fields.empty.put (.str "CWar") (some (.table 1)),
      { LuaState.empty.heap with strict := fun _ => some "undefined" }⟩).1 = .ok (.fail "undefined")) := rfl

theorem failed_chunk_iff (f : Chunk) (s : LuaState) : ∃ n, ∀ depth, n ≤ depth →
    Failed ((reload depth (.chunk f)).exec s).1 →
      (Unchanged s ((reload depth (.chunk f)).exec s).2 ↔ Safe s (.chunk f)) := by
  cases hrun : f.run.exec s with
  | mk ret t =>
    cases ret with
    | error e =>
      refine ⟨0, fun depth _ _ => ?_⟩
      rw [reload_raised hrun]
      refine ⟨Safe.raises hrun, fun h => ?_⟩
      cases h with
      | raises hrun' h =>
        rw [hrun] at hrun'
        exact congrArg Prod.snd hrun' ▸ h
    | ok _ =>
      obtain ⟨U, hU⟩ := t.heap.finite
      refine ⟨U.card + 1, fun depth hdepth => ?_⟩
      rw [reload_exec hrun]
      cases hmerge : (Merge.merge depth s.env).exec ⟨t, []⟩ with
      | mk ret r =>
        cases ret with
        | ok _ => exact False.elim
        | error msg =>
          refine fun _ => iff_of_false (not_unchanged_merge hU hdepth hmerge) fun h => ?_
          cases h with
          | raises hrun' _ =>
            rw [hrun] at hrun'
            exact nomatch congrArg Prod.fst hrun'

/-- After a reload that failed, the module is as before iff nothing had happened to it yet. -/
theorem failed_unchanged_iff (file : File) (s : LuaState) : ∃ n, ∀ depth, n ≤ depth →
    Failed ((reload depth file).exec s).1 → (Unchanged s ((reload depth file).exec s).2 ↔ Safe s file) := by
  cases file with
  | missing => exact ⟨0, fun _ _ _ => iff_of_true (Unchanged.refl s) Safe.missing⟩
  | malformed e => exact ⟨0, fun _ _ _ => iff_of_true (Unchanged.refl s) (Safe.malformed e)⟩
  | chunk f => exact failed_chunk_iff f s

end Reload

/-- A new version of a file that raises when it has defined the classes `l`. -/
def brokenFile (l : List (String × Ref × Nat)) (e : String) : Chunk where
  run := do
    (classFile l).run
    throw e
  names := (classFile l).names
  frame := (classFile l).frame

theorem failed_unchanged_warObj : ∃ n, ∀ depth, n ≤ depth →
    Unchanged (loaded warObj) ((reload depth (.chunk (brokenFile [] "raised"))).exec (loaded warObj)).2 := by
  obtain ⟨n, hn⟩ := failed_unchanged_iff (.chunk (brokenFile [] "raised")) (loaded warObj)
  refine ⟨n, fun depth hdepth => (hn depth hdepth trivial).2 ?_⟩
  exact Safe.raises rfl (Unchanged.refl (loaded warObj))

/-- The module has the class of a version that raised. -/
theorem not_failed_unchanged : ¬ ∃ n, ∀ depth, n ≤ depth →
    Failed ((reload depth (.chunk (brokenFile warObj' "raised"))).exec (loaded warObj)).1 →
      Unchanged (loaded warObj) ((reload depth (.chunk (brokenFile warObj' "raised"))).exec (loaded warObj)).2 := by
  rintro ⟨n, hn⟩
  have hclass : some (Value.table 2) = some (.table 1) := (hn n (Nat.le_refl n) trivial).env (.str "CWar")
  exact nomatch hclass

end RoundGame.Base
