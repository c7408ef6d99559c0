import RoundGame.Lib.PMap

/-!
# Tables that list their fields

A table lists its fields in the order in which a traversal meets them, no two of the same key (`Fields`). A field that
is there keeps its place when it is assigned; a new one comes last.

- `get` and `put`; a field is taken out by `put k none` (`get_put_self`, `get_put_of_ne`);
- a traversal meets the fields that are there (`mem_keys`), and a `put` does not change in which order it meets the
  others (`filter_keys_put`);
- a loop over the fields in any order, each of whose turns changes only what is seen under the key of its field
  (`view_foldl`, `get_foldl_del`, `foldl_reaches`).
-/

structure Fields (κ β : Type*) where
  entries : List (κ × β)
  nodup : (entries.map Prod.fst).Nodup

namespace Fields

variable {κ β : Type*}

def empty : Fields κ β := ⟨[], List.nodup_nil⟩

/-- The keys, in the order of a traversal. -/
def keys (t : Fields κ β) : List κ := t.entries.map Prod.fst

theorem entries_eq_nil {t : Fields κ β} : t.entries = [] ↔ ∀ k, k ∉ t.keys := by
  rw [← List.eq_nil_iff_forall_not_mem, keys, List.map_eq_nil_iff]

@[simp] theorem keys_empty : (empty : Fields κ β).keys = [] := rfl

variable [DecidableEq κ]

def get (t : Fields κ β) (k : κ) : Option β := t.entries.lookup k

def putEntries (k : κ) (v : Option β) (l : List (κ × β)) : List (κ × β) :=
  match v with
  | none => l.filter fun e => e.1 ≠ k
  | some v => if k ∈ l.map Prod.fst then l.map fun e => if e.1 = k then (k, v) else e else l ++ [(k, v)]

section Entries

variable {k j : κ} {v : β} {l : List (κ × β)}

theorem lookup_isSome_iff : (l.lookup k).isSome ↔ k ∈ l.map Prod.fst := by
  induction l with
  | nil => exact iff_of_false (fun h => nomatch h) List.not_mem_nil
  | cons e l ih =>
    rw [List.lookup_cons, List.map_cons, List.mem_cons]
    by_cases hk : k = e.1
    · rw [beq_iff_eq.2 hk]
      exact iff_of_true rfl (Or.inl hk)
    · rw [beq_eq_false_iff_ne.2 hk, or_iff_right hk]
      exact ih

theorem mem_of_lookup (h : l.lookup k = some v) : (k, v) ∈ l := by
  obtain ⟨l₁, l₂, rfl, -⟩ := List.lookup_eq_some_iff.1 h
  exact List.mem_append_right l₁ List.mem_cons_self

/-- Writing the key anew does not change the keys. -/
theorem map_fst_rewrite : (l.map fun e => if e.1 = k then (k, v) else e).map Prod.fst = l.map Prod.fst := by
  rw [List.map_map]
  refine List.map_congr_left fun e _ => ?_
  show (if e.1 = k then (k, v) else e).1 = e.1
  split
  · rename_i h
    exact h.symm
  · rfl

theorem lookup_rewrite : (l.map fun e => if e.1 = k then (k, v) else e).lookup j =
    if j = k then (l.lookup j).map fun _ => v else l.lookup j := by
  induction l with
  | nil => exact (ite_self none).symm
  | cons e l ih =>
    rw [List.map_cons, List.lookup_cons, List.lookup_cons, ih]
    by_cases he : e.1 = k
    · rw [if_pos he]
      subst he
      by_cases hj : j = e.1
      · rw [if_pos hj, if_pos hj, beq_iff_eq.2 hj]
        rfl
      · rw [if_neg hj, if_neg hj, beq_eq_false_iff_ne.2 hj]
    · rw [if_neg he]
      by_cases hj : j = k
      · subst hj
        rw [if_pos rfl, if_pos rfl, beq_eq_false_iff_ne.2 (Ne.symm he)]
      · rw [if_neg hj, if_neg hj]

theorem lookup_filter_ne : (l.filter fun e => e.1 ≠ k).lookup j = if j = k then none else l.lookup j := by
  induction l with
  | nil => exact (ite_self none).symm
  | cons e l ih =>
    rw [List.lookup_cons]
    by_cases he : e.1 = k
    · rw [List.filter_cons_of_neg (by simpa using he), ih]
      by_cases hj : j = k
      · rw [if_pos hj, if_pos hj]
      · rw [if_neg hj, if_neg hj, beq_eq_false_iff_ne.2 fun h => hj (h.trans he)]
    · rw [List.filter_cons_of_pos (by simpa using he), List.lookup_cons, ih]
      by_cases hj : j = k
      · rw [if_pos hj, if_pos hj, beq_eq_false_iff_ne.2 fun h => he (h.symm.trans hj)]
      · rw [if_neg hj, if_neg hj]

theorem lookup_putEntries (v : Option β) :
    (putEntries k v l).lookup j = if j = k then v else l.lookup j := by
  cases v with
  | none => exact lookup_filter_ne
  | some v =>
    show (if k ∈ l.map Prod.fst then _ else _ : List (κ × β)).lookup j = _
    split
    · rename_i hk
      rw [lookup_rewrite]
      by_cases hj : j = k
      · subst hj
        obtain ⟨w, hw⟩ := Option.isSome_iff_exists.1 (lookup_isSome_iff.2 hk)
        rw [if_pos rfl, if_pos rfl, hw]
        rfl
      · rw [if_neg hj, if_neg hj]
    · rename_i hk
      rw [List.lookup_append]
      by_cases hj : j = k
      · subst hj
        have hnone : l.lookup j = none := Option.not_isSome_iff_eq_none.1 fun h => hk (lookup_isSome_iff.1 h)
        rw [if_pos rfl, hnone, List.lookup_cons, beq_self_eq_true]
        rfl
      · rw [if_neg hj, List.lookup_cons, beq_eq_false_iff_ne.2 hj]
        exact Option.or_none

theorem nodup_putEntries (h : (l.map Prod.fst).Nodup) (v : Option β) : ((putEntries k v l).map Prod.fst).Nodup := by
  cases v with
  | none => exact h.sublist (List.filter_sublist.map Prod.fst)
  | some v =>
    show ((if k ∈ l.map Prod.fst then _ else _ : List (κ × β)).map Prod.fst).Nodup
    split
    · rwa [map_fst_rewrite]
    · rename_i hk
      rw [List.map_append]
      refine List.nodup_append.2 ⟨h, List.nodup_singleton _, ?_⟩
      rintro j hj _ hmem rfl
      rw [List.mem_singleton.1 hmem] at hj
      exact hk hj

theorem filter_fst_putEntries {p : κ → Bool} (hp : p k = false) (v : Option β) :
    ((putEntries k v l).map Prod.fst).filter p = (l.map Prod.fst).filter p := by
  cases v with
  | none =>
    show ((l.filter fun e => e.1 ≠ k).map Prod.fst).filter p = _
    rw [List.filter_map, List.filter_map, List.filter_filter]
    refine congrArg _ (List.filter_congr fun e _ => ?_)
    show (p e.1 && decide (e.1 ≠ k)) = p e.1
    by_cases he : e.1 = k
    · rw [he, hp, Bool.false_and]
    · rw [decide_eq_true he, Bool.and_true]
  | some v =>
    show ((if k ∈ l.map Prod.fst then _ else _ : List (κ × β)).map Prod.fst).filter p = _
    split
    · rw [map_fst_rewrite]
    · rw [List.map_append, List.filter_append, show List.filter p ([(k, v)].map Prod.fst) = [] from
        List.filter_cons_of_neg (by simp [hp]), List.append_nil]

end Entries

/-- `t[k] = v`. -/
def put (k : κ) (v : Option β) (t : Fields κ β) : Fields κ β := ⟨putEntries k v t.entries, nodup_putEntries t.nodup v⟩

variable {t : Fields κ β} {k j : κ}

theorem mem_keys : k ∈ t.keys ↔ (t.get k).isSome := lookup_isSome_iff.symm

theorem get_put (v : Option β) : (t.put k v).get j = if j = k then v else t.get j := lookup_putEntries v

@[simp] theorem get_put_self (v : Option β) : (t.put k v).get k = v := (get_put v).trans (if_pos rfl)

theorem get_put_of_ne (h : j ≠ k) (v : Option β) : (t.put k v).get j = t.get j := (get_put v).trans (if_neg h)

theorem mem_keys_put (v : β) : j ∈ (t.put k (some v)).keys ↔ j = k ∨ j ∈ t.keys := by
  rw [mem_keys, mem_keys, get_put]
  by_cases hj : j = k <;> simp [hj]

theorem filter_keys_put {p : κ → Bool} (hp : p k = false) (v : Option β) :
    (t.put k v).keys.filter p = t.keys.filter p := filter_fst_putEntries hp v

theorem get_put_eq_update (k : κ) (v : Option β) (t : Fields κ β) :
    (t.put k v).get = Function.update t.get k v := by
  funext j
  rw [get_put, Function.update_apply]

/-! ## Loops over the fields -/

section Loops

variable {l : List (κ × β)}

theorem get_eq_some_iff {v : β} : t.get k = some v ↔ (k, v) ∈ t.entries := PMap.lookup_eq_some_iff_mem t.nodup

omit [DecidableEq κ] in
/-- The keys of the fields in any order. -/
theorem nodup_of_perm (h : l.Perm t.entries) : (l.map Prod.fst).Nodup := (h.map Prod.fst).nodup_iff.2 t.nodup

/-- The fields in any order are found as before. -/
theorem lookup_of_perm (h : l.Perm t.entries) (k : κ) : l.lookup k = t.get k := by
  refine Option.ext fun v => ?_
  rw [PMap.lookup_eq_some_iff_mem (nodup_of_perm h), get_eq_some_iff]
  exact h.mem_iff

variable {σ γ : Type*}

/-- A loop over the fields in any order, each of whose turns changes only what is seen under the key of its field. -/
theorem view_foldl (view : σ → κ → γ) (g : κ × β → γ → γ) {body : σ → κ × β → σ}
    (hbody : ∀ s e j, view (body s e) j = if j = e.1 then g e (view s j) else view s j) (hl : l.Perm t.entries) (s : σ)
    (j : κ) : view (l.foldl body s) j = (t.get j).elim (view s j) fun v => g (j, v) (view s j) := by
  rw [← lookup_of_perm hl]
  have hnodup := nodup_of_perm hl
  clear hl
  induction l generalizing s with
  | nil => rfl
  | cons e l ih =>
    obtain ⟨k, v⟩ := e
    rw [List.map_cons, List.nodup_cons] at hnodup
    rw [List.foldl_cons, ih (body s (k, v)) hnodup.2, hbody, List.lookup_cons]
    by_cases hj : j = k
    · subst hj
      -- no later turn has this key
      have hnone : l.lookup j = none := Option.not_isSome_iff_eq_none.1 fun h => hnodup.1 (lookup_isSome_iff.1 h)
      rw [hnone, if_pos rfl, beq_self_eq_true]
      rfl
    · rw [if_neg hj, beq_eq_false_iff_ne.2 hj]

/-- The fields of some keys taken out. -/
theorem get_foldl_del (l : List κ) (t : Fields κ β) (j : κ) :
    (l.foldl (fun t k => t.put k none) t).get j = if j ∈ l then none else t.get j := by
  induction l generalizing t with
  | nil => rfl
  | cons k l ih =>
    rw [List.foldl_cons, ih, get_put]
    by_cases hj : j = k
    · simp [hj]
    · simp [hj]

end Loops

/-- What holds after one of the turns of a loop, and stays as the loop goes on, holds at its end. -/
theorem foldl_reaches {σ ε : Type*} {body : σ → ε → σ} {P : σ → Prop} (hkeep : ∀ s e, P s → P (body s e)) {l : List ε}
    {e : ε} (he : e ∈ l) (hreach : ∀ s, P (body s e)) (s : σ) : P (l.foldl body s) := by
  induction l generalizing s with
  | nil => exact absurd he List.not_mem_nil
  | cons a l ih =>
    rcases List.mem_cons.1 he with rfl | he
    · exact List.foldlRecOn l body (hreach s) fun s hs e _ => hkeep s e hs
    · exact ih he (body s a)

end Fields
