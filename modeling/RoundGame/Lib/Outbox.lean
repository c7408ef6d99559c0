import Mathlib.Data.List.Basic
import Mathlib.Data.List.Flatten

/-!
# Items written to a stream

A queue of items of which a part may be written already (`Part`). `Takes q w d q'`: writes that took the bytes `w` off
the queue `q`, after which the items `d` are written whole and `q'` is left.

`Written wire done q`: the stream `wire` has the items `done`, one after the other, and what is written of the first
item of `q`; of the others nothing is written. Then the stream and what is still to come are whole items
(`Written.total`). This is kept by writes (`Written.takes`) and when an item is put anywhere behind the first one, or
before it when nothing of it is written (`Written.insert`).

Items have lanes. `SameLanes` lists have the same items in each lane, in the same order; an item may overtake those of
other lanes (`sameLanes_insert`).
-/

namespace Outbox

structure Part (α : Type) where
  item : α
  pos : Nat

variable {α β ι : Type} (bytes : α → List β)

def Part.sent (x : Part α) : List β := (bytes x.item).take x.pos

def Part.rest (x : Part α) : List β := (bytes x.item).drop x.pos

def pending (q : List (Part α)) : List β := q.flatMap (Part.rest bytes)

/-- What is written of the first one. -/
def begun : List (Part α) → List β
  | [] => []
  | x :: _ => x.sent bytes

def items (q : List (Part α)) : List α := q.map Part.item

variable {bytes} {q r q' : List (Part α)} {w wire : List β} {done d : List α} {x : Part α}

theorem sent_append_rest (x : Part α) : x.sent bytes ++ x.rest bytes = bytes x.item := List.take_append_drop _ _

theorem sent_of_fresh (h : x.pos = 0) : x.sent bytes = [] := by
  rw [Part.sent, h, List.take_zero]

theorem rest_of_fresh (h : x.pos = 0) : x.rest bytes = bytes x.item := by
  rw [Part.rest, h, List.drop_zero]

@[simp] theorem pending_nil : pending bytes ([] : List (Part α)) = [] := rfl

@[simp] theorem pending_cons : pending bytes (x :: q) = x.rest bytes ++ pending bytes q := rfl

@[simp] theorem pending_append : pending bytes (q ++ r) = pending bytes q ++ pending bytes r := List.flatMap_append

@[simp] theorem items_nil : items ([] : List (Part α)) = [] := rfl

@[simp] theorem items_cons : items (x :: q) = x.item :: items q := rfl

@[simp] theorem items_append : items (q ++ r) = items q ++ items r := List.map_append

theorem pending_of_fresh (h : ∀ x ∈ q, x.pos = 0) : pending bytes q = (items q).flatMap bytes := by
  induction q with
  | nil => rfl
  | cons x q ih =>
    rw [pending_cons, items_cons, List.flatMap_cons, rest_of_fresh (h x List.mem_cons_self),
      ih fun y hy => h y (List.mem_cons_of_mem _ hy)]

/-! ## Writes -/

variable (bytes) in
inductive Takes : List (Part α) → List β → List α → List (Part α) → Prop
  | stop (q : List (Part α)) : Takes q [] [] q
  | part (x : Part α) (q : List (Part α)) (n : Nat) (h : n ≤ (x.rest bytes).length) :
    Takes (x :: q) ((x.rest bytes).take n) [] (⟨x.item, x.pos + n⟩ :: q)
  | whole {x : Part α} {q q' : List (Part α)} {w : List β} {d : List α} (h : Takes q w d q') :
    Takes (x :: q) (x.rest bytes ++ w) (x.item :: d) q'

namespace Takes

theorem items_eq (h : Takes bytes q w d q') : items q = d ++ items q' := by
  induction h with
  | stop q => rfl
  | part x q n hn => rfl
  | whole h ih => rw [items_cons, ih, List.cons_append]

/-- What is behind stays as it is. -/
theorem append (h : Takes bytes q w d q') (r : List (Part α)) : Takes bytes (q ++ r) w d (q' ++ r) := by
  induction h with
  | stop q => exact .stop _
  | part x q n hn => exact .part x _ n hn
  | whole h ih => exact .whole ih

theorem pending_eq (h : Takes bytes q w d q') : pending bytes q = w ++ pending bytes q' := by
  induction h with
  | stop q => rfl
  | part x q n hn =>
    have hrest : (⟨x.item, x.pos + n⟩ : Part α).rest bytes = (x.rest bytes).drop n := by
      rw [Part.rest, Part.rest, List.drop_drop]
    rw [pending_cons, pending_cons, hrest, ← List.append_assoc, List.take_append_drop]
  | whole h ih => rw [pending_cons, ih, List.append_assoc]

/-- What is left behind the first one was there before. -/
theorem forall_tail {P : Part α → Prop} (h : Takes bytes q w d q') (hq : ∀ x ∈ q.tail, P x) : ∀ x ∈ q'.tail, P x := by
  induction h with
  | stop q => exact hq
  | part x q n hn => exact hq
  | whole h ih => exact ih fun y hy => hq y (List.mem_of_mem_tail hy)

end Takes

variable (bytes) in
structure Written (wire : List β) (done : List α) (q : List (Part α)) : Prop where
  wire_eq : wire = done.flatMap bytes ++ begun bytes q
  fresh : ∀ x ∈ q.tail, x.pos = 0

theorem written_start : Written bytes [] [] ([] : List (Part α)) := ⟨rfl, fun _ h => (List.not_mem_nil h).elim⟩

/-- The stream and what is still to come are whole items. -/
theorem Written.total (h : Written bytes wire done q) :
    wire ++ pending bytes q = (done ++ items q).flatMap bytes := by
  rw [h.wire_eq, List.append_assoc, List.flatMap_append]
  congr 1
  cases q with
  | nil => rfl
  | cons x q =>
    rw [begun, pending_cons, items_cons, List.flatMap_cons, ← List.append_assoc, sent_append_rest,
      pending_of_fresh (q := q) h.fresh]

theorem Written.takes (h : Written bytes wire done q) (ht : Takes bytes q w d q') :
    Written bytes (wire ++ w) (done ++ d) q' := by
  induction ht generalizing wire done with
  | stop q =>
    rw [List.append_nil, List.append_nil]
    exact h
  | part x q n hn =>
    refine ⟨?_, h.fresh⟩
    have hsent : (⟨x.item, x.pos + n⟩ : Part α).sent bytes = x.sent bytes ++ (x.rest bytes).take n := by
      rw [Part.sent, Part.sent, Part.rest, List.take_add]
    rw [h.wire_eq, begun, begun, hsent, List.append_nil, List.append_assoc]
  | @whole x q q' w d ht ih =>
    have hdone : Written bytes (wire ++ x.rest bytes) (done ++ [x.item]) q := by
      refine ⟨?_, fun y hy => h.fresh y (List.mem_of_mem_tail hy)⟩
      have hbegun : begun bytes q = [] := by
        cases q with
        | nil => rfl
        | cons y q => exact sent_of_fresh (h.fresh y List.mem_cons_self)
      rw [h.wire_eq, begun, List.append_assoc, sent_append_rest, hbegun, List.append_nil, List.flatMap_append,
        List.flatMap_singleton]
    have hrest := ih hdone
    rwa [List.append_assoc, List.append_assoc, List.singleton_append] at hrest

/-- An item is put behind others, or before all of them when nothing of them is written. -/
theorem Written.insert (h : Written bytes wire done (q ++ r)) (hx : x.pos = 0) (hr : q = [] → ∀ y ∈ r, y.pos = 0) :
    Written bytes wire done (q ++ x :: r) := by
  cases q with
  | nil =>
    have hfresh := hr rfl
    refine ⟨?_, hfresh⟩
    have hbegun : begun bytes r = [] := by
      cases r with
      | nil => rfl
      | cons y r => exact sent_of_fresh (hfresh y List.mem_cons_self)
    rw [h.wire_eq, List.nil_append, List.nil_append, hbegun, begun, sent_of_fresh hx]
  | cons z q =>
    refine ⟨h.wire_eq, fun y hy => ?_⟩
    rw [List.cons_append, List.tail_cons, List.mem_append, List.mem_cons] at hy
    rcases hy with hy | rfl | hy
    · exact h.fresh y (List.mem_append_left r hy)
    · exact hx
    · exact h.fresh y (List.mem_append_right q hy)

/-! ## Lanes -/

section Lanes

variable [DecidableEq ι] {lane : α → ι} {l l' a b : List α} {y : α}

def SameLanes (lane : α → ι) (l l' : List α) : Prop :=
  ∀ p, (l.filter fun y => lane y = p) = l'.filter fun y => lane y = p

theorem SameLanes.concat (h : SameLanes lane l l') (y : α) : SameLanes lane (l ++ [y]) (l' ++ [y]) := by
  intro p
  rw [List.filter_append, List.filter_append, h p]

/-- An item overtakes those of other lanes. -/
theorem sameLanes_insert (h : SameLanes lane l (a ++ b)) (hb : ∀ z ∈ b, lane z ≠ lane y) :
    SameLanes lane (l ++ [y]) (a ++ y :: b) := by
  intro p
  rw [List.filter_append, h p, List.filter_append, List.filter_append, List.filter_cons, List.append_assoc]
  congr 1
  by_cases hp : lane y = p
  · have hnone : (b.filter fun z => lane z = p) = [] := by
      rw [List.filter_eq_nil_iff]
      intro z hz hlane
      exact hb z hz ((of_decide_eq_true hlane).trans hp.symm)
    simp [hp, hnone]
  · simp [hp]

end Lanes

end Outbox
