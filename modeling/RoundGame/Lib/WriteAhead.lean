import Mathlib.Order.Basic

/-!
# A bound stored ahead of its use

A store holds an optional bound and handles a queue of entries in order: `raise n` replaces the bound by `n`, `rely p`
uses a value that the bound has to cover by then.

- `Ready o q`: with the bound `o` stored, the entries of `q` only raise it, and each value is covered when its turn
  comes (`ready_append`, `ready_insert_rely`);
- `last o q` is the bound after the queue; what is covered stays covered (`covers_last`).
-/

namespace WriteAhead

/-- What a queue holds. -/
inductive Entry (α : Type*)
  | raise (n : α)
  | rely (p : α)

variable {α : Type*}

/-- The bound after the entries of a queue. -/
def last : Option α → List (Entry α) → Option α
  | o, [] => o
  | _, .raise n :: q => last (some n) q
  | o, .rely _ :: q => last o q

theorem last_append (o : Option α) (q r : List (Entry α)) : last o (q ++ r) = last (last o q) r := by
  induction q generalizing o with
  | nil => rfl
  | cons e q ih => cases e <;> exact ih _

/-- A stored bound covers a value. -/
def Covers [LE α] (o : Option α) (p : α) : Prop := ∃ n ∈ o, p ≤ n

/-- The entries of a queue only raise the bound, and each value is covered when its turn comes. -/
def Ready [LE α] : Option α → List (Entry α) → Prop
  | _, [] => True
  | o, .raise n :: q => (∀ m ∈ o, m ≤ n) ∧ Ready (some n) q
  | o, .rely p :: q => Covers o p ∧ Ready o q

variable [Preorder α]

theorem covers_self (n : α) : Covers (some n) n := ⟨n, rfl, le_rfl⟩

/-- A higher bound covers more. -/
theorem Covers.raise {o : Option α} {p n : α} (h : Covers o p) (hn : ∀ m ∈ o, m ≤ n) : Covers (some n) p := by
  obtain ⟨m, hm, hp⟩ := h
  exact ⟨n, rfl, hp.trans (hn m hm)⟩

theorem Covers.le {o : Option α} {p c : α} (h : Covers o p) (hc : ∀ n ∈ o, n ≤ c) : p ≤ c := by
  obtain ⟨n, hn, hp⟩ := h
  exact hp.trans (hc n hn)

theorem ready_append {o : Option α} {q r : List (Entry α)} :
    Ready o (q ++ r) ↔ Ready o q ∧ Ready (last o q) r := by
  induction q generalizing o with
  | nil => simp [Ready, last]
  | cons e q ih => cases e <;> simp [Ready, last, ih, and_assoc]

/-- What is covered stays covered along a queue. -/
theorem covers_last {o : Option α} {q : List (Entry α)} {p : α} (hq : Ready o q) (h : Covers o p) :
    Covers (last o q) p := by
  induction q generalizing o with
  | nil => exact h
  | cons e q ih =>
    cases e with
    | raise n => exact ih hq.2 (h.raise hq.1)
    | rely p' => exact ih hq.2 h

/-- A covered value may be queued anywhere behind the entries that cover it. -/
theorem ready_insert_rely {o : Option α} {q r : List (Entry α)} {p : α} (h : Ready o (q ++ r))
    (hp : Covers (last o q) p) : Ready o (q ++ .rely p :: r) := by
  obtain ⟨hq, hr⟩ := ready_append.1 h
  exact ready_append.2 ⟨hq, hp, hr⟩

end WriteAhead
