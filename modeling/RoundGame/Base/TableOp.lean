import RoundGame.Lib.Agenda
import Mathlib.Data.Set.Finite.Lattice
import Mathlib.Data.Set.Finite.List
import Mathlib.Data.Set.Finite.Range
import Mathlib.Logic.Function.Basic

/-!
# Writing a table

`table_serialize` of `tableop.lua`, which `print` calls for every table that it is given. It keeps, in `visited`, the
value that it met last under each key, in whatever table, and leaves an entry out when its value is that one.

A graph of tables gives each table its entries, in the order in which `pairs` goes through them; keys and values may be
tables. The depth of the recursion is a parameter: `none` is what a call gives that is deeper.

- What is done to `visited` is an agenda of tables and entries (`Item`, `act`): a call returns, for some depth, iff its
  agenda gets done (`ends_iff_done`). If it does not, a table or an entry comes again within itself while `visited` is
  the same (`exists_within`).
- So it returns when the table does not lead to a feud: entries, each in a table that another of them leads to, such
  that under its key another of them has a different value (`ends_of_not_feud`).
-/

namespace RoundGame.Base.TableOp

open Relation

/-- What Lua does with the values that are not tables; `eq` is `==`. -/
class Scalar (S : Type) where
  eq : S → S → Bool
  isFalse : S → Bool
  isNumber : S → Bool
  tostring : S → String

/-- A table is the same as another one when their identities are. -/
inductive Value (T S : Type)
  | table (t : T)
  | scalar (s : S)
deriving DecidableEq

abbrev Entry (T S : Type) := Value T S × Value T S

structure LuaTable (T S : Type) where
  entries : List (Entry T S)
  nodup : (entries.map Prod.fst).Nodup

abbrev Graph (T S : Type) := T → LuaTable T S

abbrev Visited (T S : Type) := Value T S → Option (Value T S)

section Code

variable {T S : Type} [DecidableEq T] [DecidableEq S] [Scalar S]

def Value.truthy : Value T S → Bool
  | .table _ => true
  | .scalar s => !Scalar.isFalse s

/-- `==`. -/
def Value.eq : Value T S → Value T S → Bool
  | .table t, .table u => t = u
  | .scalar s, .scalar r => Scalar.eq s r
  | _, _ => false

/-- `not visited[k] or visited[k] ~= v`. -/
def isNew (visited : Visited T S) (e : Entry T S) : Bool :=
  match visited e.1 with
  | none => true
  | some w => !w.truthy || !w.eq e.2

/-- `visited[k] = v`. -/
def mark (visited : Visited T S) (e : Entry T S) : Visited T S := Function.update visited e.1 (some e.2)

section Entry

variable (serialize : T → Visited T S → Option (String × Visited T S))

def keyText (visited : Visited T S) : Value T S → Option (String × Visited T S)
  | .table t => (serialize t visited).map fun (s, visited) => ("[" ++ s ++ "] = ", visited)
  | .scalar s =>
    if Scalar.isNumber s = true then some ("[" ++ Scalar.tostring s ++ "] = ", visited)
    else some (Scalar.tostring s ++ " = ", visited)

def valueText (visited : Visited T S) : Value T S → Option (String × Visited T S)
  | .table t => serialize t visited
  | .scalar s => some (Scalar.tostring s, visited)

/-- The body of the loop; `serialize` is the function itself. -/
def serializeEntry : String × Visited T S → Entry T S → Option (String × Visited T S)
  | (con, visited), e =>
    if isNew visited e = true then do
      let (k, visited) ← keyText serialize (mark visited e) e.1
      let (v, visited) ← valueText serialize visited e.2
      some (con ++ k ++ v ++ ", ", visited)
    else some (con, visited)

end Entry

def tableSerialize (g : Graph T S) : Nat → T → Visited T S → Option (String × Visited T S)
  | 0, _, _ => none
  | depth + 1, tbl, visited => do
    let (con, visited) ← (g tbl).entries.foldlM (serializeEntry (tableSerialize g depth)) ("\x7b", visited)
    some (con ++ "\x7d", visited)

/-- The call with no `visited` returns. -/
def Ends (g : Graph T S) (tbl : T) : Prop := ∃ depth r, tableSerialize g depth tbl (fun _ => none) = some r

end Code

/-! ## What is done to `visited` -/

inductive Item (T S : Type)
  | table (t : T)
  | entry (e : Entry T S)

section Agenda

variable {T S : Type} [DecidableEq T] [DecidableEq S] [Scalar S]

def Value.tables : Value T S → List T
  | .table t => [t]
  | .scalar _ => []

/-- The tables that an entry leads to, in the order in which they are written. -/
def tables (e : Entry T S) : List T := e.1.tables ++ e.2.tables

def act (g : Graph T S) : Item T S → Visited T S → List (Item T S) × Visited T S
  | .table t, visited => ((g t).entries.map .entry, visited)
  | .entry e, visited =>
    if isNew visited e = true then ((tables e).map .table, mark visited e) else ([], visited)

variable {g : Graph T S} {visited : Visited T S} {con : String}
  {serialize : T → Visited T S → Option (String × Visited T S)} {run : Visited T S → Item T S → Option (Visited T S)}

theorem map_foldlM {α β γ : Type} {f : β → α → Option β} {f' : γ → α → Option γ} {p : β → γ}
    (h : ∀ b a, (f b a).map p = f' (p b) a) (l : List α) (b : β) : (l.foldlM f b).map p = l.foldlM f' (p b) := by
  induction l generalizing b with
  | nil => rfl
  | cons a l ih =>
    rw [List.foldlM_cons, List.foldlM_cons, ← h b a]
    cases f b a with
    | none => rfl
    | some b' => exact ih b'

omit [DecidableEq T] [DecidableEq S] in
theorem map_keyText (h : ∀ t visited, (serialize t visited).map Prod.snd = run visited (.table t))
    (visited : Visited T S) (k : Value T S) :
    (keyText serialize visited k).map Prod.snd = (k.tables.map Item.table).foldlM run visited := by
  cases k with
  | table t =>
    rw [Value.tables, List.map_singleton, List.foldlM_cons, ← h t visited, keyText]
    cases serialize t visited <;> rfl
  | scalar s =>
    rw [keyText]
    split <;> rfl

omit [DecidableEq T] [DecidableEq S] in
theorem map_valueText (h : ∀ t visited, (serialize t visited).map Prod.snd = run visited (.table t))
    (visited : Visited T S) (v : Value T S) :
    (valueText serialize visited v).map Prod.snd = (v.tables.map Item.table).foldlM run visited := by
  cases v with
  | table t =>
    rw [Value.tables, List.map_singleton, List.foldlM_cons, ← h t visited, valueText]
    cases serialize t visited <;> rfl
  | scalar s => rfl

theorem map_serializeEntry (h : ∀ t visited, (serialize t visited).map Prod.snd = run visited (.table t))
    (con : String) (visited : Visited T S) (e : Entry T S) :
    (serializeEntry serialize (con, visited) e).map Prod.snd =
      (act g (.entry e) visited).1.foldlM run (act g (.entry e) visited).2 := by
  rw [serializeEntry, act]
  split
  · rw [tables, List.map_append, List.foldlM_append, ← map_keyText h]
    cases hk : keyText serialize (mark visited e) e.1 with
    | none => rfl
    | some r =>
      simp only [Option.bind_eq_bind, Option.bind_some, Option.map_some]
      rw [← map_valueText h]
      cases valueText serialize r.2 e.2 <;> rfl
  · rfl

/-- What a call does to `visited` is a run of its agenda, two levels for each table. -/
theorem map_tableSerialize (g : Graph T S) (depth : Nat) (tbl : T) (visited : Visited T S) :
    (tableSerialize g depth tbl visited).map Prod.snd = Agenda.run (act g) (2 * depth) visited (.table tbl) := by
  induction depth generalizing tbl visited with
  | zero => rfl
  | succ depth ih =>
    have hfold : ((g tbl).entries.foldlM (serializeEntry (tableSerialize g depth)) ("\x7b", visited)).map Prod.snd =
        (g tbl).entries.foldlM (fun visited e => Agenda.run (act g) (2 * depth + 1) visited (.entry e)) visited :=
      map_foldlM (fun r e => map_serializeEntry ih r.1 r.2 e) (g tbl).entries ("\x7b", visited)
    rw [tableSerialize, Nat.mul_succ, Agenda.run, act, List.foldlM_map, ← hfold]
    cases (g tbl).entries.foldlM (serializeEntry (tableSerialize g depth)) ("\x7b", visited) <;> rfl

theorem ends_iff_done (g : Graph T S) (tbl : T) :
    Ends g tbl ↔ ∃ visited, Agenda.Done (act g) [.table tbl] (fun _ => none) visited := by
  constructor
  · rintro ⟨depth, r, hr⟩
    refine ⟨r.2, Agenda.done_of_run (n := 2 * depth) ?_⟩
    rw [← map_tableSerialize, hr]
    rfl
  · rintro ⟨visited, h⟩
    obtain ⟨n, hn⟩ := Agenda.done_iff_run.1 h
    have hrun := Agenda.run_le (Nat.le_mul_of_pos_left n Nat.two_pos) hn
    rw [← map_tableSerialize, Option.map_eq_some_iff] at hrun
    obtain ⟨r, hr, -⟩ := hrun
    exact ⟨n, r, hr⟩

end Agenda

/-! ## When a call returns -/

section Ends

variable {T S : Type} [DecidableEq T] [DecidableEq S] [Scalar S] {g : Graph T S} {s s' : List (Item T S) × Visited T S}
  {visited : Visited T S} {i j : Item T S}

/-- What a task puts on the agenda. -/
theorem mem_act (h : i ∈ (act g j visited).1) :
    (∃ t e, j = .table t ∧ i = .entry e ∧ e ∈ (g t).entries) ∨
      ∃ e t, j = .entry e ∧ i = .table t ∧ t ∈ tables e ∧ isNew visited e = true := by
  cases j with
  | table t =>
    obtain ⟨e, he, rfl⟩ := List.mem_map.1 h
    exact Or.inl ⟨t, e, rfl, rfl, he⟩
  | entry e =>
    rw [act] at h
    split at h
    case isTrue hnew =>
      obtain ⟨t, ht, rfl⟩ := List.mem_map.1 h
      exact Or.inr ⟨e, t, rfl, rfl, ht, hnew⟩
    case isFalse => cases h

/-- A task changes nothing, or it is an entry and stands under its key then. -/
theorem act_visited (g : Graph T S) (i : Item T S) (visited : Visited T S) :
    (act g i visited).2 = visited ∨
      ∃ e, i = .entry e ∧ isNew visited e = true ∧ (act g i visited).2 = mark visited e := by
  cases i with
  | table t => exact Or.inl rfl
  | entry e =>
    rw [act]
    split
    case isTrue hnew => exact Or.inr ⟨e, rfl, hnew, rfl⟩
    case isFalse => exact Or.inl rfl

omit [Scalar S] in
theorem mark_apply (visited : Visited T S) (e : Entry T S) (k : Value T S) :
    mark visited e k = if k = e.1 then some e.2 else visited k := by
  rw [mark, Function.update_apply]

omit [DecidableEq S] in
theorem isNew_eq_false_iff {e : Entry T S} :
    isNew visited e = false ↔ ∃ v, visited e.1 = some v ∧ v.truthy = true ∧ v.eq e.2 = true := by
  rw [isNew]
  cases visited e.1 with
  | none => simp
  | some v => simp

/-- The entries on the agenda and in `visited` are entries of the graph. -/
structure OfGraph (g : Graph T S) (s : List (Item T S) × Visited T S) : Prop where
  agenda : ∀ e, .entry e ∈ s.1 → ∃ t, e ∈ (g t).entries
  visited : ∀ k v, s.2 k = some v → ∃ t, (k, v) ∈ (g t).entries

theorem OfGraph.step (h : OfGraph g s) (hstep : Agenda.Step (act g) s s') : OfGraph g s' := by
  obtain ⟨i, l, visited⟩ := hstep
  refine ⟨fun e he => ?_, fun k v hkv => ?_⟩
  · rcases List.mem_append.1 he with he | he
    · rcases mem_act he with ⟨t, e', -, heq, he'⟩ | ⟨_, _, -, heq, -⟩
      · obtain rfl := Item.entry.inj heq
        exact ⟨t, he'⟩
      · cases heq
    · exact h.agenda e (List.mem_cons_of_mem i he)
  · rcases act_visited g i visited with heq | ⟨e, rfl, -, heq⟩
    · exact h.visited k v (by rwa [heq] at hkv)
    · simp only [heq, mark_apply] at hkv
      split at hkv
      case isTrue hk =>
        obtain rfl := Option.some.inj hkv
        subst hk
        exact h.agenda e List.mem_cons_self
      case isFalse => exact h.visited k v hkv

theorem OfGraph.steps (h : OfGraph g s) (hsteps : ReflTransGen (Agenda.Step (act g)) s s') : OfGraph g s' := by
  induction hsteps with
  | refl => exact h
  | tail _ hstep ih => exact ih.step hstep

omit [DecidableEq T] [DecidableEq S] [Scalar S] in
theorem finite_entries [Finite T] (g : Graph T S) : {e | ∃ t, e ∈ (g t).entries}.Finite := by
  have hunion : {e | ∃ t, e ∈ (g t).entries} = ⋃ t, {e | e ∈ (g t).entries} := by
    ext e
    simp
  rw [hunion]
  exact Set.finite_iUnion fun t => List.finite_toSet (g t).entries

omit [DecidableEq T] [DecidableEq S] [Scalar S] in
/-- There are finitely many `visited` tables with the entries of a graph. -/
theorem finite_visited [Finite T] (g : Graph T S) :
    {visited : Visited T S | ∀ k v, visited k = some v → ∃ t, (k, v) ∈ (g t).entries}.Finite := by
  refine Set.Finite.of_injOn (f := fun visited => {e : Entry T S | visited e.1 = some e.2})
    (t := {E | E ⊆ {e | ∃ t, e ∈ (g t).entries}}) ?_ ?_ (finite_entries g).finite_subsets
  · exact fun visited h e he => h e.1 e.2 he
  · intro visited _ visited' _ heq
    have hiff : ∀ k v, visited k = some v ↔ visited' k = some v := fun k v => Set.ext_iff.1 heq (k, v)
    funext k
    exact Option.ext fun v => hiff k v

theorem finite_met [Finite T] (g : Graph T S) (tbl : T) :
    {c | Agenda.Met (act g) ([.table tbl], fun _ => none) c}.Finite := by
  have hitems := (Set.finite_range Item.table).union ((finite_entries g).image Item.entry)
  refine (hitems.prod (finite_visited g)).subset ?_
  rintro ⟨i, visited⟩ ⟨l, hl⟩
  have hstart : OfGraph g ([.table tbl], fun _ => none) := by
    refine ⟨fun e he => ?_, fun k v hkv => ?_⟩
    · cases List.mem_singleton.1 he
    · cases hkv
  have h := hstart.steps hl
  refine ⟨?_, h.visited⟩
  cases i with
  | table t => exact Or.inl ⟨t, rfl⟩
  | entry e => exact Or.inr ⟨e, h.agenda e List.mem_cons_self, rfl⟩

/-- When a call does not return, something comes again within itself while `visited` is the same. -/
theorem exists_within [Finite T] {tbl : T} (h : ¬ Ends g tbl) :
    ∃ c, Agenda.Met (act g) ([.table tbl], fun _ => none) c ∧ Agenda.Within (act g) c c := by
  rw [ends_iff_done, Agenda.done_iff (finite_met g tbl)] at h
  push Not at h
  exact h

/-! ### Tables that are reached -/

/-- There is a way from one table to the other through keys and values. -/
def Reaches (g : Graph T S) : T → T → Prop := ReflTransGen fun t u => ∃ e ∈ (g t).entries, u ∈ tables e

def Item.Reached (g : Graph T S) (tbl : T) : Item T S → Prop
  | .table t => Reaches g tbl t
  | .entry e => ∃ t, Reaches g tbl t ∧ e ∈ (g t).entries

/-- Only what is reached gets on the agenda. -/
theorem reached_of_steps {tbl : T} (h : ∀ i ∈ s.1, i.Reached g tbl)
    (hsteps : ReflTransGen (Agenda.Step (act g)) s s') : ∀ i ∈ s'.1, i.Reached g tbl := by
  induction hsteps with
  | refl => exact h
  | tail _ hstep ih =>
    obtain ⟨j, l, visited⟩ := hstep
    obtain ⟨hj, hl⟩ := List.forall_mem_cons.1 ih
    intro i hi
    rcases List.mem_append.1 hi with hi | hi
    · rcases mem_act hi with ⟨t, e, rfl, rfl, he⟩ | ⟨e, t, rfl, rfl, ht, -⟩
      · exact ⟨t, hj, he⟩
      · obtain ⟨u, hu, he⟩ := hj
        exact hu.tail ⟨e, he, ht⟩
    · exact hl i hi

theorem Item.Reached.met {tbl : T} {c c' : Item T S × Visited T S} (h : c.1.Reached g tbl)
    (hmet : Agenda.Met (act g) ([c.1], c.2) c') : c'.1.Reached g tbl := by
  obtain ⟨l, hl⟩ := hmet
  exact reached_of_steps (by simpa using h) hl c'.1 List.mem_cons_self

/-! ### Feuds -/

/-- What stands in `visited` stood there before, or is an entry that has been written since. -/
theorem visited_of_steps (h : ReflTransGen (Agenda.Step (act g)) s s') (k : Value T S) :
    s'.2 k = s.2 k ∨
      ∃ v visited, s'.2 k = some v ∧ Agenda.Met (act g) s (.entry (k, v), visited) ∧ isNew visited (k, v) = true := by
  induction h with
  | refl => exact Or.inl rfl
  | tail hsteps hstep ih =>
    obtain ⟨i, l, visited⟩ := hstep
    rcases act_visited g i visited with heq | ⟨e, rfl, hnew, heq⟩
    · simpa only [heq] using ih
    · simp only [heq, mark_apply] at ih ⊢
      split
      case isTrue hk =>
        subst hk
        exact Or.inr ⟨e.2, visited, rfl, ⟨l, hsteps⟩, hnew⟩
      case isFalse => exact ih

/-- Entries that the table leads to, each in a table that another one of them leads to, and each with another one that
has its key, and a value after which it is new. -/
structure Feud (g : Graph T S) (tbl : T) (W : Set (Entry T S)) : Prop where
  source : ∀ e ∈ W, ∃ e' ∈ W, ∃ t ∈ tables e', Reaches g tbl t ∧ e ∈ (g t).entries
  rival : ∀ e ∈ W, ∃ e' ∈ W, e'.1 = e.1 ∧ ¬ (e'.2.truthy = true ∧ e'.2.eq e.2 = true)

section Feud

variable {c : Item T S × Visited T S} {e : Entry T S} {tbl : T}

omit [DecidableEq S] in
theorem not_same_of_isNew {v : Value T S} (h : isNew visited e = true) (hv : visited e.1 = some v) :
    ¬ (v.truthy = true ∧ v.eq e.2 = true) := by
  rw [isNew, hv] at h
  simp only [Bool.or_eq_true, Bool.not_eq_true'] at h
  rintro ⟨htruthy, heq⟩
  simp [htruthy, heq] at h

/-- The entries that are written within a task. -/
def writtenIn (g : Graph T S) (c : Item T S × Visited T S) : Set (Entry T S) :=
  {e | ∃ visited, Agenda.Met (act g) ([c.1], c.2) (.entry e, visited) ∧ isNew visited e = true}

/-- Whatever table is met within a task that comes again within itself, an entry that is written leads to it. -/
theorem exists_written {t : T} (hself : Agenda.Within (act g) c c)
    (hmet : Agenda.Met (act g) ([c.1], c.2) (.table t, visited)) : ∃ e ∈ writtenIn g c, t ∈ tables e := by
  obtain ⟨c', hc', hmem⟩ := Agenda.origin_of_self hself hmet
  rcases mem_act hmem with ⟨_, _, -, heq, -⟩ | ⟨e, t', hentry, heq, ht, hnew⟩
  · cases heq
  · obtain rfl := Item.table.inj heq
    exact ⟨e, ⟨c'.2, by rwa [← hentry], hnew⟩, ht⟩

theorem exists_table (hreached : c.1.Reached g tbl) (hself : Agenda.Within (act g) c c)
    (hmet : Agenda.Met (act g) ([c.1], c.2) (.entry e, visited)) :
    ∃ e' ∈ writtenIn g c, ∃ t ∈ tables e', Reaches g tbl t ∧ e ∈ (g t).entries := by
  obtain ⟨c', hc', hmem⟩ := Agenda.origin_of_self hself hmet
  rcases mem_act hmem with ⟨t, e', htable, heq, he⟩ | ⟨_, _, -, heq, -, -⟩
  · obtain rfl := Item.entry.inj heq
    have hmet' : Agenda.Met (act g) ([c.1], c.2) (.table t, c'.2) := by rwa [← htable]
    obtain ⟨e', he', ht⟩ := exists_written hself hmet'
    exact ⟨e', he', t, ht, hreached.met hmet', he⟩
  · cases heq

/-- Before an entry is written again, another value has been set under its key. -/
theorem exists_rival (hself : Agenda.Within (act g) c c) (he : e ∈ writtenIn g c) :
    ∃ e' ∈ writtenIn g c, e'.1 = e.1 ∧ ¬ (e'.2.truthy = true ∧ e'.2.eq e.2 = true) := by
  obtain ⟨l, hself⟩ := hself
  obtain ⟨visited, ⟨l', hmet⟩, hnew⟩ := he
  have hrival : ∀ v, (e.1, v) ∈ writtenIn g c → visited e.1 = some v →
      ∃ e' ∈ writtenIn g c, e'.1 = e.1 ∧ ¬ (e'.2.truthy = true ∧ e'.2.eq e.2 = true) :=
    fun v hv hlast => ⟨(e.1, v), hv, rfl, not_same_of_isNew hnew hlast⟩
  rcases visited_of_steps hmet e.1 with hstart | ⟨v, visited', hlast, hwritten, hv⟩
  · -- Nothing has been set since the task began: it was set before the task comes again.
    obtain ⟨t, l'', ht, hto, hback⟩ := Agenda.lap hself hmet
    obtain ⟨u, hstep, hrest⟩ := TransGen.head'_iff.1 hback
    have hsteps := hto.tail hstep
    obtain ⟨i, l₁, visited'⟩ := hstep
    obtain ⟨hcons, rfl⟩ := Prod.mk.inj ht
    obtain ⟨rfl, -⟩ := List.cons_eq_cons.1 hcons
    have hset : ∃ v, (e.1, v) ∈ writtenIn g c ∧ c.2 e.1 = some v := by
      rcases visited_of_steps hrest e.1 with hlast | ⟨v, visited', hlast, ⟨l₂, hwritten⟩, hv⟩
      · refine ⟨e.2, ⟨visited, ⟨l', hmet⟩, hnew⟩, hlast.trans ?_⟩
        simp only [act, if_pos hnew, mark_apply, if_true]
      · exact ⟨v, ⟨visited', ⟨l₂, hsteps.trans hwritten⟩, hv⟩, hlast⟩
    obtain ⟨v, hv, hlast⟩ := hset
    exact hrival v hv (hstart.trans hlast)
  · exact hrival v ⟨visited', hwritten, hv⟩ hlast

theorem feud_writtenIn (hreached : c.1.Reached g tbl) (hself : Agenda.Within (act g) c c) :
    Feud g tbl (writtenIn g c) :=
  ⟨fun _ ⟨_, hmet, _⟩ => exists_table hreached hself hmet, fun _ he => exists_rival hself he⟩

theorem writtenIn_nonempty (hreached : c.1.Reached g tbl) (hself : Agenda.Within (act g) c c) :
    (writtenIn g c).Nonempty := by
  obtain ⟨i, visited⟩ := c
  cases i with
  | table t =>
    obtain ⟨e, he, -⟩ := exists_written hself ⟨[], .refl⟩
    exact ⟨e, he⟩
  | entry e =>
    obtain ⟨e', he', -⟩ := exists_table hreached hself ⟨[], .refl⟩
    exact ⟨e', he'⟩

end Feud

/-- **A table that leads to no feud can be written,** whatever the order of the entries. -/
theorem ends_of_not_feud [Finite T] {tbl : T} (h : ∀ W, Feud g tbl W → ¬ W.Nonempty) : Ends g tbl := by
  by_contra hends
  obtain ⟨c, ⟨l, hl⟩, hself⟩ := exists_within hends
  have hreached : c.1.Reached g tbl := by
    refine reached_of_steps ?_ hl c.1 List.mem_cons_self
    intro i hi
    rw [List.mem_singleton.1 hi]
    exact ReflTransGen.refl
  exact h (writtenIn g c) (feud_writtenIn hreached hself) (writtenIn_nonempty hreached hself)

end Ends

end RoundGame.Base.TableOp
