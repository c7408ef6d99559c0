import RoundGame.Lib.Text

/-!
# Occurrences of a word in a text

- `first w t`: where `w` occurs in `t` for the first time;
- `count w t`: the occurrences of `w` that are met when `t` is read from the left and each one is passed over as a
  whole, so that no two of them overlap;
- `Cut w t ps`: the text `t` cut at these occurrences. The pieces joined by `w` are the text (`Cut.intercalate_eq`),
  none has `w` in it (`Cut.free`), and there is one more of them than there are occurrences (`Cut.length_eq`).
-/

namespace Occur

variable {α : Type*} [DecidableEq α]

/-- The number of characters before the first occurrence. -/
def first (w t : List α) : Option Nat := t.tails.findIdx? w.isPrefixOf

/-- The occurrences in a text of which the first characters are passed over. -/
def countAfter (w : List α) : Nat → List α → Nat
  | _, [] => 0
  | k + 1, _ :: t => countAfter w k t
  | 0, c :: t => if w <+: c :: t then countAfter w (w.length - 1) t + 1 else countAfter w 0 t

def count (w t : List α) : Nat := countAfter w 0 t

inductive Cut (w : List α) : List α → List (List α) → Prop
  | last {t : List α} : first w t = none → Cut w t [t]
  | cons {t : List α} {i : Nat} {ps : List (List α)} :
      first w t = some i → Cut w (t.drop (i + w.length)) ps → Cut w t (t.take i :: ps)

variable {w t : List α} {i : Nat} {ps : List (List α)}

/-! ## The first occurrence -/

theorem first_eq_some :
    first w t = some i ↔ i ≤ t.length ∧ w <+: t.drop i ∧ ∀ j, j < i → ¬ w <+: t.drop j := by
  rw [first, List.findIdx?_eq_some_iff_getElem]
  simp only [List.length_tails, List.getElem_tails, List.isPrefixOf_iff_prefix, Nat.lt_succ_iff, exists_prop]

theorem first_eq_none : first w t = none ↔ ¬ w <:+: t := by
  rw [first, List.findIdx?_eq_none_iff]
  simp only [List.mem_tails, Bool.eq_false_iff, ne_eq, List.isPrefixOf_iff_prefix]
  constructor
  · intro h hw
    obtain ⟨s, hpre, hsuf⟩ := List.infix_iff_prefix_suffix.1 hw
    exact h s hsuf hpre
  · exact fun h s hsuf hpre => h (List.infix_iff_prefix_suffix.2 ⟨s, hpre, hsuf⟩)

/-- The text is what precedes the first occurrence, the word, and the rest. -/
theorem take_append_drop (h : first w t = some i) : t.take i ++ (w ++ t.drop (i + w.length)) = t := by
  obtain ⟨-, ⟨rest, hrest⟩, -⟩ := first_eq_some.1 h
  have hdrop : t.drop (i + w.length) = rest := by
    rw [← List.drop_drop, ← hrest, List.drop_left]
  rw [hdrop, hrest, List.take_append_drop]

/-- There is no occurrence before the first one. -/
theorem not_infix_take (hw : w ≠ []) (h : first w t = some i) : ¬ w <:+: t.take i := by
  obtain ⟨-, -, hbefore⟩ := first_eq_some.1 h
  rintro ⟨a, b, hab⟩
  have hlen : a.length + w.length + b.length ≤ i := by
    have hle := List.length_take_le i t
    rw [← hab, List.length_append, List.length_append] at hle
    exact hle
  have hpos : 0 < w.length := List.length_pos_iff.2 hw
  refine hbefore a.length (by omega) ⟨b ++ t.drop i, ?_⟩
  have ht : a ++ (w ++ (b ++ t.drop i)) = t := by
    rw [← List.append_assoc, ← List.append_assoc, hab, List.take_append_drop]
  calc w ++ (b ++ t.drop i) = (a ++ (w ++ (b ++ t.drop i))).drop a.length := by rw [List.drop_left]
    _ = t.drop a.length := by rw [ht]

/-! ## The occurrences from the left -/

theorem countAfter_eq (w : List α) (k : Nat) (t : List α) : countAfter w k t = count w (t.drop k) := by
  induction t generalizing k with
  | nil => cases k <;> rfl
  | cons c t ih =>
    cases k with
    | zero => rfl
    | succ k => exact ih k

theorem count_cons_of_not (c : α) (h : ¬ w <+: c :: t) : count w (c :: t) = count w t := by
  rw [count, countAfter, if_neg h, count]

theorem count_of_prefix (hw : w ≠ []) (h : w <+: t) : count w t = count w (t.drop w.length) + 1 := by
  obtain ⟨a, w, rfl⟩ := List.exists_cons_of_ne_nil hw
  obtain ⟨rest, rfl⟩ := h
  rw [List.cons_append, count, countAfter, if_pos ⟨rest, rfl⟩, countAfter_eq]
  rfl

theorem count_eq_zero (h : ¬ w <:+: t) : count w t = 0 := by
  induction t with
  | nil => rfl
  | cons c t ih =>
    rw [count_cons_of_not c fun hpre => h hpre.isInfix]
    exact ih fun ht => h (ht.trans (List.suffix_cons c t).isInfix)

/-- The characters before the first occurrence do not count. -/
theorem count_drop (h : ∀ j, j < i → ¬ w <+: t.drop j) : count w t = count w (t.drop i) := by
  induction i generalizing t with
  | zero => rfl
  | succ i ih =>
    cases t with
    | nil => rfl
    | cons c t =>
      have hc : ¬ w <+: c :: t := h 0 i.succ_pos
      rw [count_cons_of_not c hc, List.drop_succ_cons]
      exact ih fun j hj => h (j + 1) (Nat.succ_lt_succ hj)

theorem count_of_first (hw : w ≠ []) (h : first w t = some i) :
    count w t = count w (t.drop (i + w.length)) + 1 := by
  obtain ⟨-, hpre, hbefore⟩ := first_eq_some.1 h
  rw [count_drop hbefore, count_of_prefix hw hpre, List.drop_drop]

/-! ## The pieces of a text -/

theorem Cut.ne_nil (h : Cut w t ps) : ps ≠ [] := by
  cases h <;> exact List.cons_ne_nil _ _

theorem Cut.intercalate_eq (h : Cut w t ps) : w.intercalate ps = t := by
  induction h with
  | last _ => exact Text.intercalate_singleton w _
  | @cons t i ps hfirst hcut ih =>
    obtain ⟨p, ps, rfl⟩ := List.exists_cons_of_ne_nil hcut.ne_nil
    rw [Text.intercalate_cons_cons, ih, take_append_drop hfirst]

theorem Cut.free (hw : w ≠ []) (h : Cut w t ps) : ∀ p ∈ ps, ¬ w <:+: p := by
  induction h with
  | last hnone =>
    intro p hp
    rw [List.mem_singleton.1 hp]
    exact first_eq_none.1 hnone
  | cons hfirst _ ih =>
    intro p hp
    rcases List.mem_cons.1 hp with rfl | hp
    · exact not_infix_take hw hfirst
    · exact ih p hp

theorem Cut.length_eq (hw : w ≠ []) (h : Cut w t ps) : ps.length = count w t + 1 := by
  induction h with
  | last hnone => rw [count_eq_zero (first_eq_none.1 hnone), List.length_singleton]
  | cons hfirst _ ih => rw [List.length_cons, ih, count_of_first hw hfirst]

end Occur
