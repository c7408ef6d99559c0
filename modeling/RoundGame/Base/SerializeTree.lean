import RoundGame.Base.SerializeChain
import Mathlib.Data.Fintype.Card
import Mathlib.Data.String.Basic

/-!
# Writing a tree of tables

The graph of a table is a tree when no table is reached from it in two ways. Its text is complete when it is the one in
which each table is written with all of its entries (`whole`).

- What a call has written when it returns is the complete text, or shorter; it is complete iff each entry, in the order
  in which they are written, is new then (`writes_tableSerialize`).
- In a tree the call returns (`ends_of_isTree`). So `table_serialize` does what it should with a tree iff no entry has
  the key and the value of the last entry with its key, and with another graph when the table leads to no feud; of a
  chain, only then (`serializes_iff`).
-/

namespace RoundGame.Base.TableOp

section Whole

variable {T S : Type} [Scalar S]

def wholeKey (text : T → String) : Value T S → String
  | .table t => "[" ++ text t ++ "] = "
  | .scalar s => if Scalar.isNumber s = true then "[" ++ Scalar.tostring s ++ "] = " else Scalar.tostring s ++ " = "

def wholeValue (text : T → String) : Value T S → String
  | .table t => text t
  | .scalar s => Scalar.tostring s

def wholeEntry (text : T → String) (e : Entry T S) : String := wholeKey text e.1 ++ wholeValue text e.2 ++ ", "

/-- The text with all entries of all tables that are less than `depth` deep. -/
def whole (g : Graph T S) : Nat → T → String
  | 0, _ => ""
  | depth + 1, t => "\x7b" ++ String.join ((g t).entries.map (wholeEntry (whole g depth))) ++ "\x7d"

end Whole

section Tree

variable {T S : Type}

/-- These entries, in the order in which they are written. -/
def preorder (g : Graph T S) : Nat → T → List (Entry T S)
  | 0, _ => []
  | depth + 1, t => (g t).entries.flatMap fun e => e :: (tables e).flatMap (preorder g depth)

inductive Side
  | key
  | value

/-- A way from one table to another: the keys of the entries, and which side of each. -/
inductive Path (g : Graph T S) : T → List (Value T S × Side) → T → Prop
  | nil (t : T) : Path g t [] t
  | key {t u u' : T} {v : Value T S} {p : List (Value T S × Side)} (he : (.table u, v) ∈ (g t).entries)
      (hp : Path g u p u') : Path g t ((.table u, .key) :: p) u'
  | value {t u u' : T} {k : Value T S} {p : List (Value T S × Side)} (he : (k, .table u) ∈ (g t).entries)
      (hp : Path g u p u') : Path g t ((k, .value) :: p) u'

/-- No table is reached twice. -/
def IsTree (g : Graph T S) (tbl : T) : Prop := ∀ p q t, Path g tbl p t → Path g tbl q t → p = q

end Tree

section Property

variable {n : Nat} {S : Type} [DecidableEq S] [Scalar S]

/-- The value of an entry is that of the last entry with the same key before it, and not `false`. -/
def Repeats {T : Type} [DecidableEq T] (l : List (Entry T S)) : Prop :=
  ∃ l₁ k v l₂ w l₃, l = l₁ ++ (k, v) :: (l₂ ++ (k, w) :: l₃) ∧ (∀ e ∈ l₂, e.1 ≠ k) ∧ v.truthy = true ∧ v.eq w = true

/-- The call returns, and in a tree the text has every entry of every table at its place. No table of a tree of `n`
tables is `n` deep. -/
def Serializes (g : Graph (Fin n) S) (tbl : Fin n) : Prop :=
  Ends g tbl ∧
    (IsTree g tbl → ∃ depth visited, tableSerialize g depth tbl (fun _ => none) = some (whole g n tbl, visited))

end Property

/-! ## Entries that are new -/

section Fresh

variable {T S : Type} [DecidableEq T] [DecidableEq S] [Scalar S] {visited : Visited T S} {e : Entry T S}
  {l l' : List (Entry T S)}

def Fresh : Visited T S → List (Entry T S) → Prop
  | _, [] => True
  | visited, e :: l => isNew visited e = true ∧ Fresh (mark visited e) l

theorem fresh_append : Fresh visited (l ++ l') ↔ Fresh visited l ∧ Fresh (l.foldl mark visited) l' := by
  induction l generalizing visited with
  | nil => simp [Fresh]
  | cons e l ih => simp only [List.cons_append, Fresh, ih, List.foldl_cons, and_assoc]

theorem fresh_iff_isNew :
    Fresh visited l ↔ ∀ l₁ e l₂, l = l₁ ++ e :: l₂ → isNew (l₁.foldl mark visited) e = true := by
  constructor
  · rintro h l₁ e l₂ rfl
    exact (fresh_append.1 h).2.1
  · intro h
    induction l generalizing visited with
    | nil => exact trivial
    | cons e l ih =>
      refine ⟨h [] e l rfl, ih fun l₁ e' l₂ hl => ?_⟩
      exact h (e :: l₁) e' l₂ (by rw [hl, List.cons_append])

omit [Scalar S] in
/-- The value under a key is that of the last entry with the key, if there is one. -/
theorem foldl_mark_eq_some {k v : Value T S} :
    l.foldl mark visited k = some v ↔
      (visited k = some v ∧ ∀ e ∈ l, e.1 ≠ k) ∨ ∃ l₁ l₂, l = l₁ ++ (k, v) :: l₂ ∧ ∀ e ∈ l₂, e.1 ≠ k := by
  induction l generalizing visited with
  | nil => simp
  | cons e l ih =>
    rw [List.foldl_cons, ih, mark_apply]
    constructor
    · rintro (⟨hv, hl⟩ | ⟨l₁, l₂, rfl, hl⟩)
      · split at hv
        case isTrue hk =>
          obtain rfl := Option.some.inj hv
          subst hk
          exact Or.inr ⟨[], l, rfl, hl⟩
        case isFalse hk => exact Or.inl ⟨hv, List.forall_mem_cons.2 ⟨fun heq => hk heq.symm, hl⟩⟩
      · exact Or.inr ⟨e :: l₁, l₂, rfl, hl⟩
    · rintro (⟨hv, hl⟩ | ⟨l₁, l₂, heq, hl⟩)
      · obtain ⟨hk, hl⟩ := List.forall_mem_cons.1 hl
        exact Or.inl ⟨by rw [if_neg fun heq => hk heq.symm, hv], hl⟩
      · rcases List.cons_eq_append_iff.1 heq with ⟨rfl, hcons⟩ | ⟨l₁, rfl, rfl⟩
        · obtain ⟨rfl, rfl⟩ := List.cons_eq_cons.1 hcons
          exact Or.inl ⟨if_pos rfl, hl⟩
        · exact Or.inr ⟨l₁, l₂, rfl, hl⟩

theorem fresh_iff : Fresh (fun _ => none) l ↔ ¬ Repeats l := by
  rw [fresh_iff_isNew]
  constructor
  · rintro h ⟨l₁, k, v, l₂, w, l₃, rfl, hl₂, htruthy, heq⟩
    have hnew := h (l₁ ++ (k, v) :: l₂) (k, w) l₃ (by simp)
    have hlast : (l₁ ++ (k, v) :: l₂).foldl mark (fun _ => none) k = some v :=
      foldl_mark_eq_some.2 (Or.inr ⟨l₁, l₂, rfl, hl₂⟩)
    rw [isNew_eq_false_iff.2 ⟨v, hlast, htruthy, heq⟩] at hnew
    cases hnew
  · rintro h l' ⟨k, w⟩ l₃ rfl
    by_contra hnew
    rw [Bool.not_eq_true, isNew_eq_false_iff] at hnew
    obtain ⟨v, hlast, htruthy, heq⟩ := hnew
    rcases foldl_mark_eq_some.1 hlast with ⟨hnone, -⟩ | ⟨l₁, l₂, rfl, hl₂⟩
    · cases hnone
    · exact h ⟨l₁, k, v, l₂, w, l₃, by simp, hl₂, htruthy, heq⟩

end Fresh

/-! ## The text -/

section Writes

variable {T S : Type} [DecidableEq T] [DecidableEq S] [Scalar S]

/-- What `f` writes is the text, or shorter; it is the text when these entries are new, and then `visited` has them. -/
def Writes (f : Visited T S → Option (String × Visited T S)) (text : String) (l : List (Entry T S)) : Prop :=
  ∀ visited r, f visited = some r → r.1.length ≤ text.length ∧ (r.1 = text ↔ Fresh visited l) ∧
    (Fresh visited l → r.2 = l.foldl mark visited)

/-- One after the other. -/
def andThen (f f' : Visited T S → Option (String × Visited T S)) (visited : Visited T S) :
    Option (String × Visited T S) :=
  (f visited).bind fun r => (f' r.2).map fun r' => (r.1 ++ r'.1, r'.2)

variable {f f' : Visited T S → Option (String × Visited T S)} {text text' s s' : String} {l l' : List (Entry T S)}
  {e : Entry T S}

theorem append_eq_iff (h : s.length ≤ text.length) (h' : s'.length ≤ text'.length) :
    s ++ s' = text ++ text' ↔ s = text ∧ s' = text' := by
  constructor
  · intro heq
    have hlen := congrArg String.length heq
    rw [String.length_append, String.length_append] at hlen
    have hlist := congrArg String.toList heq
    rw [String.toList_append, String.toList_append] at hlist
    obtain ⟨hs, hs'⟩ := List.append_inj hlist (by rw [String.length_toList, String.length_toList]; omega)
    exact ⟨String.toList_inj.1 hs, String.toList_inj.1 hs'⟩
  · rintro ⟨rfl, rfl⟩
    rfl

theorem writes_some (text : String) : Writes (fun visited : Visited T S => some (text, visited)) text [] := by
  rintro visited r hr
  obtain rfl := Option.some.inj hr
  exact ⟨Nat.le_refl _, iff_of_true rfl trivial, fun _ => rfl⟩

theorem Writes.andThen (h : Writes f text l) (h' : Writes f' text' l') :
    Writes (andThen f f') (text ++ text') (l ++ l') := by
  intro visited r hr
  rw [TableOp.andThen, Option.bind_eq_some_iff] at hr
  obtain ⟨r₁, hf, hr⟩ := hr
  obtain ⟨r₂, hf', rfl⟩ := Option.map_eq_some_iff.1 hr
  obtain ⟨hle, hiff, hlast⟩ := h visited r₁ hf
  obtain ⟨hle', hiff', hlast'⟩ := h' r₁.2 r₂ hf'
  refine ⟨?_, ?_, ?_⟩
  · rw [String.length_append, String.length_append]
    exact Nat.add_le_add hle hle'
  · rw [append_eq_iff hle hle', hiff, fresh_append]
    refine and_congr_right fun hfresh => ?_
    rw [hiff', hlast hfresh]
  · intro hfresh
    obtain ⟨hl, hl'⟩ := fresh_append.1 hfresh
    rw [List.foldl_append, ← hlast hl]
    exact hlast' (by rwa [hlast hl])

/-- An entry that is not new is left out. -/
theorem Writes.entry (h : Writes f text l) (htext : text ≠ "") :
    Writes (fun visited => if isNew visited e = true then f (mark visited e) else some ("", visited)) text
      (e :: l) := by
  intro visited r hr
  dsimp only at hr
  by_cases hnew : isNew visited e = true
  · rw [if_pos hnew] at hr
    obtain ⟨hle, hiff, hlast⟩ := h (mark visited e) r hr
    exact ⟨hle, hiff.trans (by simp [Fresh, hnew]), fun hfresh => hlast hfresh.2⟩
  · rw [if_neg hnew] at hr
    obtain rfl := Option.some.inj hr
    exact ⟨Nat.zero_le _, iff_of_false (fun heq => htext heq.symm) (fun hfresh => hnew hfresh.1),
      fun hfresh => absurd hfresh.1 hnew⟩

variable {serialize : T → Visited T S → Option (String × Visited T S)} {text : T → String}
  {pre : T → List (Entry T S)} {g : Graph T S}

omit [DecidableEq T] [DecidableEq S] [Scalar S] in
theorem andThen_none {visited : Visited T S} (h : f visited = none) : andThen f f' visited = none := by
  rw [andThen, h, Option.bind_none]

omit [DecidableEq T] [DecidableEq S] [Scalar S] in
theorem andThen_some {visited : Visited T S} {r : String × Visited T S} (h : f visited = some r) :
    andThen f f' visited = (f' r.2).map fun r' => (r.1 ++ r'.1, r'.2) := by
  rw [andThen, h, Option.bind_some]

theorem writes_keyText {k : Value T S} (h : ∀ t ∈ k.tables, Writes (serialize t) (text t) (pre t)) :
    Writes (fun visited => keyText serialize visited k) (wholeKey text k) (k.tables.flatMap pre) := by
  cases k with
  | table t =>
    have hkey : (fun visited => keyText serialize visited (.table t)) =
        andThen (andThen (fun visited => some ("[", visited)) (serialize t)) fun visited => some ("] = ", visited) := by
      funext visited
      rw [keyText, andThen, andThen_some rfl]
      cases serialize t visited <;> rfl
    rw [hkey, Value.tables, List.flatMap_singleton, ← List.append_nil (pre t)]
    exact ((writes_some "[").andThen (h t (List.mem_singleton_self t))).andThen (writes_some "] = ")
  | scalar s =>
    have hkey : (fun visited => keyText serialize visited (.scalar s)) =
        fun visited => some (wholeKey text (.scalar s : Value T S), visited) := by
      funext visited
      rw [keyText, wholeKey]
      split <;> rfl
    rw [hkey]
    exact writes_some (wholeKey text (.scalar s : Value T S))

theorem writes_valueText {v : Value T S} (h : ∀ t ∈ v.tables, Writes (serialize t) (text t) (pre t)) :
    Writes (fun visited => valueText serialize visited v) (wholeValue text v) (v.tables.flatMap pre) := by
  cases v with
  | table t =>
    rw [Value.tables, List.flatMap_singleton]
    exact h t (List.mem_singleton_self t)
  | scalar s => exact writes_some (Scalar.tostring s)

omit [DecidableEq T] [DecidableEq S] in
theorem wholeEntry_ne (text : T → String) (e : Entry T S) : wholeEntry text e ≠ "" := by
  intro heq
  have hlen := congrArg String.length heq
  simp [wholeEntry, String.length_append] at hlen

theorem writes_serializeEntry (h : ∀ t ∈ tables e, Writes (serialize t) (text t) (pre t)) :
    Writes (fun visited => serializeEntry serialize ("", visited) e) (wholeEntry text e)
      (e :: (tables e).flatMap pre) := by
  have hk := writes_keyText fun t ht => h t (List.mem_append_left _ ht)
  have hv := writes_valueText fun t ht => h t (List.mem_append_right _ ht)
  have hentry := ((hk.andThen hv).andThen (writes_some ", ")).entry (e := e) (wholeEntry_ne text e)
  rw [List.append_nil, ← List.flatMap_append] at hentry
  have heq : (fun visited => serializeEntry serialize ("", visited) e) = fun visited =>
      if isNew visited e = true then andThen (andThen (fun visited => keyText serialize visited e.1)
        fun visited => valueText serialize visited e.2) (fun visited => some (", ", visited)) (mark visited e)
      else some ("", visited) := by
    funext visited
    rw [serializeEntry]
    split
    · cases hk : keyText serialize (mark visited e) e.1 with
      | none => rw [andThen_none (andThen_none hk)]; rfl
      | some r =>
        cases hv : valueText serialize r.2 e.2 with
        | none => simp [andThen, hk, hv]
        | some r' => simp [andThen, hk, hv]
    · rfl
  rw [heq]
  exact hentry

/-- What has been written already stays in front. -/
theorem serializeEntry_append (con : String) (visited : Visited T S)
    (e : Entry T S) :
    serializeEntry serialize (con, visited) e =
      (serializeEntry serialize ("", visited) e).map fun r => (con ++ r.1, r.2) := by
  rw [serializeEntry, serializeEntry]
  split
  · cases hk : keyText serialize (mark visited e) e.1 with
    | none => rfl
    | some r =>
      cases hv : valueText serialize r.2 e.2 with
      | none => simp [hv]
      | some r' => simp [hv, String.append_assoc]
  · simp

theorem foldlM_append (l : List (Entry T S)) (con : String) (visited : Visited T S) :
    l.foldlM (serializeEntry serialize) (con, visited) =
      (l.foldlM (serializeEntry serialize) ("", visited)).map fun r => (con ++ r.1, r.2) := by
  induction l generalizing con visited with
  | nil => simp
  | cons e l ih =>
    rw [List.foldlM_cons, List.foldlM_cons, serializeEntry_append]
    cases serializeEntry serialize ("", visited) e with
    | none => rfl
    | some r =>
      simp only [Option.map_some, Option.bind_eq_bind, Option.bind_some]
      rw [ih (con ++ r.1), ih r.1, Option.map_map]
      congr 1
      funext r'
      simp [String.append_assoc]

theorem writes_foldlM {l : List (Entry T S)} (h : ∀ e ∈ l, ∀ t ∈ tables e, Writes (serialize t) (text t) (pre t)) :
    Writes (fun visited => l.foldlM (serializeEntry serialize) ("", visited)) (String.join (l.map (wholeEntry text)))
      (l.flatMap fun e => e :: (tables e).flatMap pre) := by
  induction l with
  | nil => exact writes_some ""
  | cons e l ih =>
    have heq : (fun visited => (e :: l).foldlM (serializeEntry serialize) ("", visited)) =
        andThen (fun visited => serializeEntry serialize ("", visited) e)
          fun visited => l.foldlM (serializeEntry serialize) ("", visited) := by
      funext visited
      rw [List.foldlM_cons]
      cases he : serializeEntry serialize ("", visited) e with
      | none => rw [andThen_none he]; rfl
      | some r =>
        rw [andThen_some he]
        exact foldlM_append l r.1 r.2
    rw [heq, List.map_cons, String.join_cons, List.flatMap_cons]
    obtain ⟨he, hl⟩ := List.forall_mem_cons.1 h
    exact (writes_serializeEntry he).andThen (ih hl)

/-- No table is nested `depth` deep. -/
def Nested (g : Graph T S) : Nat → T → Prop
  | 0, _ => False
  | depth + 1, t => ∀ e ∈ (g t).entries, ∀ u ∈ tables e, Nested g depth u

theorem done_of_nested {depth : Nat} {tbl : T} (h : Nested g depth tbl) (visited : Visited T S) :
    ∃ visited', Agenda.Done (act g) [.table tbl] visited visited' := by
  induction depth generalizing tbl visited with
  | zero => cases h
  | succ depth ih =>
    have hentry : ∀ i ∈ (g tbl).entries.map Item.entry, ∀ visited, ∃ visited',
        Agenda.Done (act g) [i] visited visited' := by
      intro i hi visited
      obtain ⟨e, he, rfl⟩ := List.mem_map.1 hi
      have htables : ∀ i ∈ (act g (.entry e) visited).1, ∀ visited, ∃ visited',
          Agenda.Done (act g) [i] visited visited' := by
        intro i hi visited
        rcases mem_act hi with ⟨_, _, heq, -⟩ | ⟨e', t, heq, rfl, ht, -⟩
        · cases heq
        · obtain rfl := Item.entry.inj heq
          exact ih (h e he t ht) visited
      obtain ⟨visited', hdone⟩ := Agenda.done_of_forall htables (act g (.entry e) visited).2
      exact ⟨visited', hdone.cons (Agenda.Done.nil visited')⟩
    obtain ⟨visited', hdone⟩ := Agenda.done_of_forall hentry visited
    exact ⟨visited', Agenda.Done.cons hdone (Agenda.Done.nil visited')⟩

/-- What a call writes, if it returns: the complete text, when each entry is new. -/
theorem writes_tableSerialize {depth : Nat} {tbl : T} (h : Nested g depth tbl) (n : Nat) :
    Writes (tableSerialize g n tbl) (whole g depth tbl) (preorder g depth tbl) := by
  induction depth generalizing tbl n with
  | zero => cases h
  | succ depth ih =>
    cases n with
    | zero => exact fun _ _ hr => by cases hr
    | succ n =>
      have heq : tableSerialize g (n + 1) tbl =
          andThen (andThen (fun visited => some ("\x7b", visited))
            fun visited => (g tbl).entries.foldlM (serializeEntry (tableSerialize g n)) ("", visited))
          fun visited => some ("\x7d", visited) := by
        funext visited
        rw [tableSerialize, andThen, andThen_some rfl, foldlM_append]
        cases (g tbl).entries.foldlM (serializeEntry (tableSerialize g n)) ("", visited) <;> rfl
      have hbody := writes_foldlM fun e he t ht => ih (h e he t ht) n
      have hwrites := ((writes_some "\x7b").andThen hbody).andThen (writes_some "\x7d")
      rw [List.nil_append, List.append_nil] at hwrites
      rw [heq, whole, preorder]
      exact hwrites

end Writes

/-! ## Trees -/

section Trees

variable {T S : Type} {g : Graph T S} {t u u' : T} {p q : List (Value T S × Side)}

theorem Path.append (h : Path g t p u) (h' : Path g u q u') : Path g t (p ++ q) u' := by
  induction h with
  | nil => exact h'
  | key he _ ih => exact .key he (ih h')
  | value he _ ih => exact .value he (ih h')

theorem exists_path_of_mem {e : Entry T S} (he : e ∈ (g t).entries) (hu : u ∈ tables e) : ∃ x, Path g t [x] u := by
  obtain ⟨k, v⟩ := e
  rcases List.mem_append.1 hu with hu | hu
  · cases k with
    | table u' =>
      obtain rfl := List.mem_singleton.1 hu
      exact ⟨_, .key he (.nil u)⟩
    | scalar s => cases hu
  · cases v with
    | table u' =>
      obtain rfl := List.mem_singleton.1 hu
      exact ⟨_, .value he (.nil u)⟩
    | scalar s => cases hu

/-- In a tree, a table is not one of those that shorter ways lead to. -/
theorem not_mem_of_isTree {tbl : T} {seen : List T} (htree : IsTree g tbl) (hp : Path g tbl p t)
    (hseen : ∀ u ∈ seen, ∃ q, Path g tbl q u ∧ q.length < p.length) : t ∉ seen := by
  intro ht
  obtain ⟨q, hq, hlt⟩ := hseen t ht
  rw [htree q p t hq hp] at hlt
  exact Nat.lt_irrefl _ hlt

end Trees

section Finite

variable {n : Nat} {S : Type} {g : Graph (Fin n) S} {tbl t : Fin n} {p : List (Value (Fin n) S × Side)}

/-- `seen` are tables on the way: there are only `n`. -/
theorem nested_of_path (htree : IsTree g tbl) {depth : Nat} {seen : List (Fin n)} (hp : Path g tbl p t)
    (hseen : ∀ u ∈ seen, ∃ q, Path g tbl q u ∧ q.length < p.length) (hnodup : seen.Nodup)
    (hn : depth + seen.length = n) : Nested g depth t := by
  have hnodup' : (t :: seen).Nodup := List.nodup_cons.2 ⟨not_mem_of_isTree htree hp hseen, hnodup⟩
  induction depth generalizing t p seen with
  | zero =>
    have hle := hnodup'.length_le_card
    rw [Fintype.card_fin, List.length_cons] at hle
    omega
  | succ depth ih =>
    intro e he u hu
    obtain ⟨x, hx⟩ := exists_path_of_mem he hu
    have hp' := hp.append hx
    have hlen : (p ++ [x]).length = p.length + 1 := List.length_append
    have hseen' : ∀ u' ∈ t :: seen, ∃ q, Path g tbl q u' ∧ q.length < (p ++ [x]).length := by
      rw [hlen]
      refine List.forall_mem_cons.2 ⟨⟨p, hp, Nat.lt_succ_self _⟩, fun u' hu' => ?_⟩
      obtain ⟨q, hq, hlt⟩ := hseen u' hu'
      exact ⟨q, hq, Nat.lt_succ_of_lt hlt⟩
    refine ih hp' hseen' hnodup' ?_ (List.nodup_cons.2 ⟨not_mem_of_isTree htree hp' hseen', hnodup'⟩)
    rw [List.length_cons]
    omega

theorem nested_of_isTree (htree : IsTree g tbl) : Nested g n tbl :=
  nested_of_path htree (.nil tbl) (List.forall_mem_nil _) List.nodup_nil rfl

variable [DecidableEq S] [Scalar S]

/-- A tree is written, completely or not. -/
theorem ends_of_isTree (htree : IsTree g tbl) : Ends g tbl :=
  (ends_iff_done g tbl).2 (done_of_nested (nested_of_isTree htree) _)

/-- **Writing a table** of a tree is right iff no entry repeats the last one with its key; of another graph, when the
table leads to no feud, and of a chain only then. -/
theorem serializes_iff (g : Graph (Fin n) S) (tbl : Fin n) :
    (IsTree g tbl → (Serializes g tbl ↔ ¬ Repeats (preorder g n tbl))) ∧
      (¬ IsTree g tbl → ((∀ W, Feud g tbl W → ¬ W.Nonempty) → Serializes g tbl) ∧
        (IsChain g tbl → Serializes g tbl → ∀ W, Feud g tbl W → ¬ W.Nonempty)) := by
  constructor
  · intro htree
    have hwrites := writes_tableSerialize (nested_of_isTree htree)
    rw [← fresh_iff]
    constructor
    · rintro ⟨-, hwhole⟩
      obtain ⟨depth, visited, hr⟩ := hwhole htree
      exact (hwrites depth _ _ hr).2.1.1 rfl
    · intro hfresh
      obtain ⟨depth, r, hr⟩ := ends_of_isTree htree
      refine ⟨⟨depth, r, hr⟩, fun _ => ⟨depth, r.2, ?_⟩⟩
      rw [hr, ← (hwrites depth _ _ hr).2.1.2 hfresh]
  · intro htree
    refine ⟨fun hfeud => ⟨ends_of_not_feud hfeud, fun h => absurd h htree⟩, fun hchain hserializes => ?_⟩
    exact (ends_iff_of_isChain hchain).1 hserializes.1

end Finite

/-! ## Examples of strings -/

instance : Scalar String := ⟨fun s r => s == r, fun _ => false, fun _ => false, id⟩

/-- Two tables, each with the other one under `next`. -/
def ring : Graph (Fin 2) String := fun t => ⟨[(.scalar "next", .table (1 - t))], List.nodup_singleton _⟩

theorem tableSerialize_ring {visited : Visited (Fin 2) String} (depth : Nat) (t : Fin 2)
    (h : visited (.scalar "next") ≠ some (.table (1 - t))) : tableSerialize ring depth t visited = none := by
  induction depth generalizing t visited with
  | zero => rfl
  | succ depth ih =>
    have hnew : isNew visited (.scalar "next", .table (1 - t)) = true := by
      by_contra hold
      obtain ⟨v, hv, -, heq⟩ := isNew_eq_false_iff.1 (Bool.not_eq_true _ ▸ hold)
      cases v with
      | table u => exact h (by rw [hv, of_decide_eq_true heq])
      | scalar s => cases heq
    have hmark : ∀ t : Fin 2, (1 - t : Fin 2) ≠ 1 - (1 - t) := by decide
    have hvalue : tableSerialize ring depth (1 - t) (mark visited (.scalar "next", .table (1 - t))) = none := by
      refine ih (1 - t) ?_
      rw [mark_apply, if_pos rfl]
      exact fun heq => hmark t (Value.table.inj (Option.some.inj heq))
    simp [tableSerialize, ring, serializeEntry, hnew, keyText, valueText, Scalar.isNumber, hvalue]

/-- Neither table is ever taken as visited. -/
theorem not_serializes : ¬ Serializes ring 0 := by
  rintro ⟨⟨depth, r, hr⟩, -⟩
  rw [tableSerialize_ring depth 0 (by simp)] at hr
  cases hr

/-- `{x = 1, y = {x = 1}}`, with the texts of the numbers. -/
def twice : Graph (Fin 2) String := fun t =>
  if t = 0 then ⟨[(.scalar "x", .scalar "1"), (.scalar "y", .table 1)], by decide⟩
  else ⟨[(.scalar "x", .scalar "1")], by decide⟩

/-- The inner entry is left out. -/
example : (tableSerialize twice 2 0 fun _ => none).map Prod.fst = some "\x7bx = 1, y = \x7b\x7d, \x7d" := by decide

end RoundGame.Base.TableOp
