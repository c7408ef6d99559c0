import RoundGame.Shell.Defines

/-!
# The messages of a run

`process_proto` takes the messages of the proto files, with the numbers that the section has for them (`num_merge`). A
dictionary may list its entries in any order.
-/

namespace RoundGame.Shell

/-! ## Dictionaries in any order -/

/-- The calls of `items()` and `keys()`. -/
inductive Call
  | defines
  | kept (mod : Str)
  | added (mod : Str)
  | protos
  | starts
  | startsOf (mod : Str)
  | numbers
  | numbersOf (mod : Str)
  | blocks
  | blocksOf (mod : Str)
  | keys (mod : Str)

/-- The order in which each call lists the entries of a dictionary. -/
structure Order where
  items : {β : Type} → Call → Fields Str β → List (Str × β)
  perm : ∀ {β : Type} (c : Call) (t : Fields Str β), (items c t).Perm t.entries

/-- The order in which the entries were made. -/
def Order.made : Order := ⟨fun _ t => t.entries, fun _ t => List.Perm.refl t.entries⟩

namespace Order

variable (order : Order) {β : Type} (c : Call) (t : Fields Str β)

theorem nodup : ((order.items c t).map Prod.fst).Nodup := Fields.nodup_of_perm (order.perm c t)

theorem mem_items {k : Str} {v : β} : (k, v) ∈ order.items c t ↔ t.get k = some v := by
  rw [Fields.get_eq_some_iff]
  exact (order.perm c t).mem_iff

end Order

/-! ## `process_proto` -/

/-- The messages of a module that is still there: those of the proto file, with their numbers in the section. -/
def mergeModule (order : Order) (mod : Str) (pro_defines protos : Fields Str Num) : Fields Str Num :=
  let delete := ((order.items (.kept mod) pro_defines).filter fun e => (protos.get e.1).isNone).map Prod.fst
  let pro_defines := delete.foldl (fun t pro => t.put pro none) pro_defines
  let add (t : Fields Str Num) (e : Str × Num) : Fields Str Num :=
    if (t.get e.1).isNone then t.put e.1 (some e.2) else t
  (order.items (.added mod) protos).foldl add pro_defines

/-- One turn of the loop over the modules of the section, with the modules to delete. -/
def mergeTurn (order : Order) (protos : Defines) (s : Defines × List Str) (e : Str × Fields Str Num) :
    Defines × List Str :=
  match protos.get e.1 with
  | none => (s.1, s.2 ++ [e.1])
  | some t => (s.1.put e.1 (some (mergeModule order e.1 e.2 t)), s.2)

/-- `process_proto` up to the numbering. -/
def merge (order : Order) (defines protos : Defines) : Defines :=
  let s := (order.items .defines defines).foldl (mergeTurn order protos) (defines, [])
  let defines := s.2.foldl (fun d mod => d.put mod none) s.1
  let add (d : Defines) (e : Str × Fields Str Num) : Defines := if (d.get e.1).isNone then d.put e.1 (some e.2) else d
  (order.items .protos protos).foldl add defines

section Merge

variable (order : Order)

/-- A loop that adds the entries that are not there yet. -/
theorem get_foldl_add {β : Type} (c : Call) (t u : Fields Str β) (k : Str) :
    ((order.items c u).foldl (fun (t : Fields Str β) (e : Str × β) =>
      if (t.get e.1).isNone then t.put e.1 (some e.2) else t) t).get k = (t.get k).or (u.get k) := by
  have hturn : ∀ (t : Fields Str β) (e : Str × β) j,
      (if (t.get e.1).isNone then t.put e.1 (some e.2) else t).get j =
        if j = e.1 then (t.get j).or (some e.2) else t.get j := by
    intro t e j
    cases ht : t.get e.1 with
    | none =>
      rw [if_pos Option.isNone_none, Fields.get_put]
      split
      · rename_i hj
        rw [hj, ht, Option.none_or]
      · rfl
    | some v =>
      rw [if_neg (by simp)]
      split
      · rename_i hj
        rw [hj, ht, Option.some_or]
      · rfl
  rw [Fields.view_foldl Fields.get (fun e x => x.or (some e.2)) hturn (order.perm c u)]
  cases u.get k with
  | none => rw [Option.elim_none, Option.or_none]
  | some v => rw [Option.elim_some]

theorem get_mergeModule (mod : Str) (pro_defines protos : Fields Str Num) (pro : Str) :
    (mergeModule order mod pro_defines protos).get pro =
      (protos.get pro).map fun val => (pro_defines.get pro).getD val := by
  have hdelete : pro ∈ ((order.items (.kept mod) pro_defines).filter fun e => (protos.get e.1).isNone).map Prod.fst ↔
      (pro_defines.get pro).isSome ∧ protos.get pro = none := by
    simp only [List.mem_map, List.mem_filter, Option.isNone_iff_eq_none, Prod.exists, exists_and_right, exists_eq_right,
      Order.mem_items, Option.isSome_iff_exists]
  unfold mergeModule
  rw [get_foldl_add, Fields.get_foldl_del]
  cases hpro : protos.get pro with
  | none =>
    cases hval : pro_defines.get pro with
    | none => simp
    | some val =>
      rw [if_pos (hdelete.2 ⟨by rw [hval]; rfl, hpro⟩)]
      rfl
  | some val =>
    rw [if_neg fun h => Option.some_ne_none val (hpro.symm.trans (hdelete.1 h).2)]
    cases pro_defines.get pro <;> rfl

/-- What the loop over the modules of the section leaves of a module. -/
theorem get_foldl_mergeTurn (protos defines : Defines) (mod : Str) :
    ((order.items .defines defines).foldl (mergeTurn order protos) (defines, [])).1.get mod =
      (defines.get mod).map fun t => (protos.get mod).elim t (mergeModule order mod t) := by
  have hturn : ∀ (s : Defines × List Str) (e : Str × Fields Str Num) j, (mergeTurn order protos s e).1.get j =
      if j = e.1 then (protos.get e.1).elim (s.1.get j) fun t => some (mergeModule order e.1 e.2 t)
      else s.1.get j := by
    intro s e j
    unfold mergeTurn
    by_cases hj : j = e.1
    · subst hj
      cases protos.get e.1 <;> simp
    · cases protos.get e.1 <;> simp [hj, Fields.get_put]
  have hview := Fields.view_foldl (fun (s : Defines × List Str) => s.1.get)
    (fun e x => (protos.get e.1).elim x fun t => some (mergeModule order e.1 e.2 t)) hturn
    (order.perm .defines defines) (defines, []) mod
  rw [hview]
  cases hmod : defines.get mod with
  | none => rfl
  | some t =>
    cases hp : protos.get mod with
    | none => simp [hp]
    | some u => simp [hp]

theorem mem_foldl_mergeTurn (protos defines : Defines) (mod : Str) :
    mod ∈ ((order.items .defines defines).foldl (mergeTurn order protos) (defines, [])).2 ↔
      (defines.get mod).isSome ∧ protos.get mod = none := by
  have hturn : ∀ (s : Defines × List Str) (e : Str × Fields Str Num) j, (j ∈ (mergeTurn order protos s e).2) =
      if j = e.1 then (protos.get e.1 = none ∨ j ∈ s.2) else j ∈ s.2 := by
    intro s e j
    unfold mergeTurn
    by_cases hj : j = e.1
    · subst hj
      cases hp : protos.get e.1 <;> simp
    · cases protos.get e.1 <;> simp [hj]
  have hview := Fields.view_foldl (fun (s : Defines × List Str) j => j ∈ s.2)
    (fun e x => protos.get e.1 = none ∨ x) hturn (order.perm .defines defines) (defines, []) mod
  rw [hview]
  cases defines.get mod <;> simp

/-- The merge has the modules of the proto files. -/
theorem get_merge (defines protos : Defines) (mod : Str) : (merge order defines protos).get mod =
    (protos.get mod).map fun u => (defines.get mod).elim u fun t => mergeModule order mod t u := by
  unfold merge
  rw [get_foldl_add, Fields.get_foldl_del, get_foldl_mergeTurn]
  simp only [mem_foldl_mergeTurn]
  cases defines.get mod <;> cases protos.get mod <;> rfl

/-- The merge has the messages of the proto files: with the number of the section, if there is one. -/
theorem num_merge (defines protos : Defines) (mod pro : Str) : num (merge order defines protos) mod pro =
    (num protos mod pro).map fun val => (num defines mod pro).getD val := by
  unfold num
  rw [get_merge]
  cases defines.get mod with
  | none =>
    cases hp : protos.get mod with
    | none => rfl
    | some u => cases hu : u.get pro <;> simp [hu]
  | some t =>
    cases hp : protos.get mod with
    | none => rfl
    | some u => exact get_mergeModule order mod t u pro

end Merge

end RoundGame.Shell
