import Mathlib.Data.List.Nodup
import RoundGame.Lib.Lua

/-!
# What Lua values hold

Two tables are as good as each other when they hold the same under every path of keys, in whatever order `pairs` visits
them.

- `content v ks`: what `v[k₁][k₂]...` is, with `table` for every table; what an assignment changes of it
  (`content_setEntry`, `setEntry_same_iff`);
- `OnlyFields l v`: a table without other fields than those of `l`, and when a table of some fields holds what another
  one does (`content_fields_iff`);
- `Proper`: values whose tables have each key once, and no entry `nil`;
- a decimal is read as the integer it was written for (`tonumber_toString`).
-/

namespace Lua

/-- A value without what is in it. -/
inductive Leaf
  | nil
  | bool (b : Bool)
  | num (i : Int)
  | str (s : String)
  | table
  deriving DecidableEq

namespace Val

def leaf : Val → Leaf
  | nil => .nil
  | bool b => .bool b
  | num i => .num i
  | str s => .str s
  | tbl _ => .table

/-- The entry of a table under a key, `nil` for other values. -/
def entry : Val → Key → Val
  | tbl entries, k => (entries.lookup k).getD nil
  | _, _ => nil

/-- What is found under a path of keys. -/
def content : Val → List Key → Leaf
  | v, [] => v.leaf
  | v, k :: ks => (v.entry k).content ks

@[simp] theorem content_nil (v : Val) : v.content [] = v.leaf := rfl

@[simp] theorem content_cons (v : Val) (k : Key) (ks : List Key) : v.content (k :: ks) = (v.entry k).content ks := rfl

theorem leaf_eq_nil {v : Val} : v.leaf = .nil ↔ v = nil := by cases v <;> simp [leaf]

theorem leaf_eq_num {v : Val} {i : Int} : v.leaf = .num i ↔ v = num i := by cases v <;> simp [leaf]

theorem leaf_eq_table {v : Val} : v.leaf = .table ↔ ∃ entries, v = tbl entries := by cases v <;> simp [leaf]

/-- There is nothing in `nil`. -/
theorem nil_content : ∀ ks, nil.content ks = .nil
  | [] => rfl
  | _ :: ks => nil_content ks

/-- A number holds what another value does iff it is the value. -/
theorem content_num {v : Val} {i : Int} : v.content = (num i).content ↔ v = num i := by
  constructor
  · exact fun h => leaf_eq_num.1 (congrFun h [])
  · rintro rfl
    rfl

theorem field_eq_entry (v : Val) (s : String) : v.field s = v.entry (.str s) := by cases v <;> rfl

theorem entry_tbl (l : List (Key × Val)) (k : Key) : (tbl l).entry k = (l.lookup k).getD nil := rfl

theorem entry_cons (k k' : Key) (w : Val) (l : List (Key × Val)) :
    (tbl ((k', w) :: l)).entry k = if k = k' then w else (tbl l).entry k := by
  rw [entry_tbl, entry_tbl, List.lookup_cons]
  by_cases h : k = k'
  · simp [h]
  · simp [h, beq_false_of_ne h]

theorem entry_setEntry (k k' : Key) (v : Val) :
    ∀ l : List (Key × Val), (tbl (setEntry k v l)).entry k' = if k' = k then v else (tbl l).entry k'
  | [] => by
    cases v with
    | nil => simp [setEntry, entry]
    | _ => simp only [setEntry, entry_cons]
  | (k₁, w) :: l => by
    have ih := entry_setEntry k k' v l
    by_cases h₁ : k = k₁
    · subst h₁
      by_cases h : k' = k
      · cases v <;> simp_all [setEntry, entry_cons]
      · cases v <;> simp_all [setEntry, entry_cons]
    · have hcons : setEntry k v ((k₁, w) :: l) = (k₁, w) :: setEntry k v l := by cases v <;> simp [setEntry, h₁]
      rw [hcons, entry_cons, ih, entry_cons]
      by_cases h : k' = k₁
      · rw [if_pos h, if_pos h, if_neg (h ▸ Ne.symm h₁)]
      · rw [if_neg h, if_neg h]

/-- An assignment leaves what is in a table iff the key has what is assigned. -/
theorem setEntry_same_iff (k : Key) (v : Val) (l : List (Key × Val)) :
    (tbl (setEntry k v l)).content = (tbl l).content ↔ ((tbl l).entry k).content = v.content := by
  constructor
  · intro h
    funext ks
    have hk := congrFun h (k :: ks)
    rw [content_cons, content_cons, entry_setEntry, if_pos rfl] at hk
    exact hk.symm
  · intro h
    funext ks
    cases ks with
    | nil => rfl
    | cons k' ks =>
      rw [content_cons, content_cons, entry_setEntry]
      split
      · next hk =>
        rw [hk, h]
      · rfl

/-! ## Fields -/

/-- A table without other fields than those with the names `l`. -/
def OnlyFields (l : List String) (v : Val) : Prop := v.leaf = .table ∧ ∀ k, v.entry k ≠ nil → ∃ s ∈ l, k = .str s

/-- A table with some fields. -/
def fields (l : List (String × Val)) : Val := tbl (l.map fun e => (.str e.1, e.2))

/-- The fields that are copied from another value. -/
theorem entry_fields_copy (l : List String) (v : Val) (k : Key) :
    (fields (l.map fun s => (s, v.entry (.str s)))).entry k = if ∃ s ∈ l, k = .str s then v.entry k else nil := by
  unfold fields
  induction l with
  | nil => simp [entry]
  | cons s l ih =>
    rw [List.map_cons, List.map_cons, entry_cons, ih]
    by_cases h : k = .str s
    · simp [h]
    · simp [h]

/-- A table of some of the fields of `v` holds what `v` does iff `v` has no others. -/
theorem content_fields_iff (l : List String) (v : Val) :
    (fields (l.map fun s => (s, v.entry (.str s)))).content = v.content ↔ OnlyFields l v := by
  constructor
  · intro h
    refine ⟨(congrFun h []).symm, fun k hk => ?_⟩
    have hleaf := congrFun h [k]
    rw [content_cons, content_cons, entry_fields_copy, content_nil, content_nil] at hleaf
    by_contra hno
    rw [if_neg hno] at hleaf
    exact hk (leaf_eq_nil.1 hleaf.symm)
  · rintro ⟨htable, honly⟩
    funext ks
    cases ks with
    | nil => exact htable.symm
    | cons k ks =>
      rw [content_cons, content_cons, entry_fields_copy]
      split
      · rfl
      · next hno =>
        rw [show v.entry k = nil from by_contra fun hk => hno (honly k hk)]

/-! ## Proper values -/

/-- Each table has a key once, and no entry `nil`. -/
inductive Proper : Val → Prop
  | nil : Proper nil
  | bool (b : Bool) : Proper (bool b)
  | num (i : Int) : Proper (num i)
  | str (s : String) : Proper (str s)
  | tbl {entries : List (Key × Val)} (keys : (entries.map Prod.fst).Nodup) (values : ∀ e ∈ entries, e.2 ≠ nil)
      (proper : ∀ e ∈ entries, Proper e.2) : Proper (tbl entries)

theorem mem_of_lookup {k : Key} {v : Val} : ∀ {l : List (Key × Val)}, l.lookup k = some v → (k, v) ∈ l
  | e :: l, h => by
    rw [List.lookup_cons] at h
    by_cases hk : k = e.1
    · subst hk
      simp only [beq_self_eq_true, Option.some.injEq] at h
      rw [← h]
      exact List.mem_cons_self
    · simp only [beq_false_of_ne hk] at h
      exact List.mem_cons_of_mem _ (mem_of_lookup h)

theorem Proper.entry {v : Val} (h : v.Proper) (k : Key) : (v.entry k).Proper := by
  cases h with
  | @tbl entries keys values proper =>
    rw [entry_tbl]
    cases hl : entries.lookup k with
    | none => exact .nil
    | some w => exact proper _ (mem_of_lookup hl)
  | nil => exact .nil
  | bool b => exact .nil
  | num i => exact .nil
  | str s => exact .nil

/-- The entry under a key of a list with each key once. -/
theorem entry_of_mem {e : Key × Val} : ∀ {l : List (Key × Val)}, (l.map Prod.fst).Nodup → e ∈ l →
    (tbl l).entry e.1 = e.2
  | (k, w) :: l, hnd, he => by
    rw [List.map_cons, List.nodup_cons] at hnd
    rw [entry_cons]
    rcases List.mem_cons.1 he with rfl | hmem
    · exact if_pos rfl
    · have hne : e.1 ≠ k := by
        intro heq
        exact hnd.1 (List.mem_map.2 ⟨e, hmem, heq⟩)
      rw [if_neg hne]
      exact entry_of_mem hnd.2 hmem

end Val

/-! ## Decimals -/

theorem digits_toDigits (n : Nat) : digits (Nat.toDigits 10 n) = some n := by
  have hall : (Nat.toDigits 10 n).all Char.isDigit = true :=
    List.all_eq_true.2 fun c hc => Nat.isDigit_of_mem_toDigits (by decide) (by decide) hc
  have hval : (Nat.toDigits 10 n).foldl (fun n c => 10 * n + (c.toNat - '0'.toNat)) 0 = n :=
    Nat.ofDigitChars_ten_toDigits
  rw [digits, if_pos ⟨Nat.toDigits_ne_nil, hall⟩, hval]

/-- Without spaces at the ends there is nothing to trim. -/
theorem trim_eq_self {l : List Char} (h : ∀ c ∈ l, isSpace c = false) :
    ((l.dropWhile isSpace).reverse.dropWhile isSpace).reverse = l := by
  have hdrop : ∀ l : List Char, (∀ c ∈ l, isSpace c = false) → l.dropWhile isSpace = l := by
    intro l hl
    cases l with
    | nil => rfl
    | cons c l => rw [List.dropWhile_cons, hl c List.mem_cons_self, if_neg Bool.false_ne_true]
  rw [hdrop l h, hdrop l.reverse fun c hc => h c (List.mem_reverse.1 hc), List.reverse_reverse]

theorem not_isSpace_of_isDigit {c : Char} (h : c.isDigit = true) : isSpace c = false := by
  rw [isSpace, decide_eq_false_iff_not]
  intro hc
  simp only [List.mem_cons, List.not_mem_nil, or_false] at hc
  rcases hc with rfl | rfl | rfl | rfl | rfl | rfl <;> revert h <;> decide

theorem numeral_toString (i : Int) : numeral (toString i) = some i := by
  have hdigit : ∀ n, ∀ c ∈ Nat.toDigits 10 n, c.isDigit = true := fun n c hc =>
    Nat.isDigit_of_mem_toDigits (by decide) (by decide) hc
  have hspace : ∀ n, ∀ c ∈ Nat.toDigits 10 n, isSpace c = false := fun n c hc =>
    not_isSpace_of_isDigit (hdigit n c hc)
  rw [Int.toString_eq_repr, Int.repr_eq_if, numeral]
  split_ifs with h
  · rw [Nat.toList_repr, trim_eq_self (hspace _)]
    cases hd : Nat.toDigits 10 i.toNat with
    | nil => exact absurd hd Nat.toDigits_ne_nil
    | cons c l =>
      have hc := hdigit i.toNat c (hd ▸ List.mem_cons_self)
      have hval := digits_toDigits i.toNat
      rw [hd] at hval
      split
      · next heq =>
        cases heq
        exact absurd hc (by decide)
      · next heq =>
        cases heq
        exact absurd hc (by decide)
      · rw [hval, Option.map_some, Int.toNat_of_nonneg h]
  · have hlist : ("-" ++ (-i).toNat.repr).toList = '-' :: Nat.toDigits 10 (-i).toNat := by
      rw [String.toList_append, Nat.toList_repr]
      rfl
    have hsp : ∀ c ∈ '-' :: Nat.toDigits 10 (-i).toNat, isSpace c = false := by
      intro c hc
      rcases List.mem_cons.1 hc with rfl | hc
      · rfl
      · exact hspace _ c hc
    rw [hlist, trim_eq_self hsp]
    show (digits (Nat.toDigits 10 (-i).toNat)).map _ = _
    rw [digits_toDigits, Option.map_some]
    congr 1
    omega

/-- A decimal of an integer of Lua is read as the integer. -/
theorem tonumber_toString {i : Int} (h : IsInteger i) : tonumber (.str (toString i)) = some i := by
  rw [tonumber, numeral_toString, Option.filter_some, if_pos (decide_eq_true h)]

end Lua
