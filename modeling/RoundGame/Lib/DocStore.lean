import Mathlib.Data.List.TakeWhile

/-!
# Collections of documents

A document maps fields to values; a collection is a list of documents, with a list of fields that are unique in it.
A field that is missing counts as a value of its own in a unique index, so two documents without it conflict.

- `insert` refuses a document that conflicts with one of the collection (`insert_ok_iff`, `mem_insert`);
- `update` writes the first document selected, refused when the result conflicts with another one; with none
  selected it inserts the given one (`update_ok_of_nil`, `find_update`).
-/

namespace DocStore

variable {F V : Type*}

abbrev Doc (F V : Type*) := F → Option V

/-- Two documents agree on a unique field. -/
def Conflict (uniq : List F) (d e : Doc F V) : Prop := ∃ f ∈ uniq, d f = e f

/-- A document conflicts with none of a collection. -/
def Fits (uniq : List F) (d : Doc F V) (c : List (Doc F V)) : Prop := ∀ e ∈ c, ¬ Conflict uniq d e

section Ops

variable [DecidableEq V]

instance (uniq : List F) (d e : Doc F V) : Decidable (Conflict uniq d e) :=
  inferInstanceAs (Decidable (∃ f ∈ uniq, d f = e f))

instance (uniq : List F) (d : Doc F V) (c : List (Doc F V)) : Decidable (Fits uniq d c) :=
  inferInstanceAs (Decidable (∀ e ∈ c, ¬ Conflict uniq d e))

/-- The collection afterwards, and whether the document was inserted. -/
def insert (uniq : List F) (c : List (Doc F V)) (d : Doc F V) : List (Doc F V) × Bool :=
  if Fits uniq d c then (c ++ [d], true) else (c, false)

/-- Rewrite the first document selected by `sel`; with none selected, insert `set b` when `upsert = some b`. -/
def update (uniq : List F) (sel : Doc F V → Bool) (set : Doc F V → Doc F V) (upsert : Option (Doc F V))
    (c : List (Doc F V)) : List (Doc F V) × Bool :=
  match c.dropWhile fun d => !sel d with
  | d :: r =>
    let l := c.takeWhile fun d => !sel d
    if Fits uniq (set d) (l ++ r) then (l ++ set d :: r, true) else (c, false)
  | [] =>
    match upsert with
    | some b => insert uniq c (set b)
    | none => (c, true)

end Ops

/-- The first document selected. -/
def find (sel : Doc F V → Bool) (c : List (Doc F V)) : Option (Doc F V) := c.find? sel

/-- A collection without unique fields takes every document. -/
theorem fits_nil (d : Doc F V) (c : List (Doc F V)) : Fits [] d c := by
  rintro e - ⟨f, hf, -⟩
  cases hf

variable [DecidableEq V]

theorem insert_ok_iff {uniq : List F} {c : List (Doc F V)} {d : Doc F V} :
    (insert uniq c d).2 = true ↔ Fits uniq d c := by
  unfold insert
  split <;> simp [*]

theorem insert_of_ok {uniq : List F} {c : List (Doc F V)} {d : Doc F V} (h : (insert uniq c d).2 = true) :
    (insert uniq c d).1 = c ++ [d] := by
  simp only [insert, if_pos (insert_ok_iff.1 h)]

/-- What an insert leaves: the document when it was accepted, and nothing else new. -/
theorem mem_insert {uniq : List F} {c : List (Doc F V)} {d e : Doc F V} :
    e ∈ (insert uniq c d).1 ↔ e ∈ c ∨ (insert uniq c d).2 = true ∧ e = d := by
  unfold insert
  split <;> simp

theorem update_ok_of_nil {sel : Doc F V → Bool} {set : Doc F V → Doc F V} {upsert : Option (Doc F V)}
    {c : List (Doc F V)} : (update [] sel set upsert c).2 = true := by
  unfold update
  split
  · rw [if_pos (fits_nil _ _)]
  · cases upsert with
    | none => rfl
    | some b => exact insert_ok_iff.2 (fits_nil _ _)

omit [DecidableEq V] in
theorem find_append_of_not {sel : Doc F V → Bool} {l r : List (Doc F V)} (h : ∀ d ∈ l, sel d = false) :
    find sel (l ++ r) = find sel r := by
  unfold find
  rw [List.find?_append, List.find?_eq_none.2 fun d hd => by rw [h d hd]; simp]
  rfl

/-- **The document found after an update is the one written**, when what is written is selected. -/
theorem find_update (uniq : List F) (sel : Doc F V → Bool) (set : Doc F V → Doc F V) (b : Doc F V)
    (c : List (Doc F V)) (hset : ∀ d, sel (set d) = true) (hok : (update uniq sel set (some b) c).2 = true) :
    ∃ d, find sel (update uniq sel set (some b) c).1 = some (set d) := by
  have hbefore : ∀ d ∈ c.takeWhile fun d => !sel d, sel d = false := fun d hd => by
    simpa using List.mem_takeWhile_imp hd
  unfold update at hok ⊢
  split at hok
  · next d r hdrop =>
    by_cases hfits : Fits uniq (set d) ((c.takeWhile fun d => !sel d) ++ r)
    · refine ⟨d, ?_⟩
      simp only [if_pos hfits]
      rw [find_append_of_not hbefore]
      simp [find, hset]
    · simp only [if_neg hfits] at hok
      cases hok
  · next hdrop =>
    refine ⟨b, ?_⟩
    have hnone : ∀ d ∈ c, sel d = false := by
      rw [List.dropWhile_eq_nil_iff] at hdrop
      exact fun d hd => by simpa using hdrop d hd
    rw [insert_of_ok hok, find_append_of_not hnone]
    simp [find, hset]

end DocStore
