import RoundGame.Base.TableOp
import RoundGame.Lib.Orbit

/-!
# Writing a chain of tables

Tables that lead on to one other table each, from their last entry (`IsChain`), as those of a linked list do. A call
goes from one to the next (`Goes`) until an entry is not new, or there is no next one.

Such a chain cannot be written when it leads to a feud: the tables of the feud lead round to each other, and before the
call comes to an entry again, it has met another value under its key (`goes_on`). So a chain can be written iff it leads
to no feud (`ends_iff_of_isChain`).
-/

namespace RoundGame.Base.TableOp

open Relation Orbit

section Chain

variable {T S : Type}

/-- The tables that are reached lead on by the value of their last entry only. -/
structure IsChain (g : Graph T S) (tbl : T) : Prop where
  key : ∀ t, Reaches g tbl t → ∀ e ∈ (g t).entries, e.1.tables = []
  last : ∀ t, Reaches g tbl t → ∀ e ∈ (g t).entries.dropLast, e.2.tables = []

/-- The entries of a table that leads on. -/
structure Leads (g : Graph T S) (t : T) (l : List (Entry T S)) (k : Value T S) (u : T) : Prop where
  entries : (g t).entries = l ++ [(k, .table u)]
  key : k.tables = []
  before : ∀ e ∈ l, tables e = []

def Next (g : Graph T S) (tbl t u : T) : Prop := Reaches g tbl t ∧ ∃ e ∈ (g t).entries, u ∈ tables e

variable {g : Graph T S} {tbl t u x : T} {e : Entry T S} {k : Value T S} {l : List (Entry T S)}

theorem Leads.mem (h : Leads g t l k u) : (k, .table u) ∈ (g t).entries := by
  rw [h.entries]
  exact List.mem_concat_self

theorem Leads.tables (h : Leads g t l k u) : tables (k, (.table u : Value T S)) = [u] := by
  rw [TableOp.tables, h.key]
  rfl

/-- No other entry has the key. -/
theorem Leads.key_ne (h : Leads g t l k u) : ∀ e ∈ l, e.1 ≠ k := by
  have hnodup := (g t).nodup
  rw [h.entries, List.map_append, List.nodup_append] at hnodup
  exact fun e he => hnodup.2.2 e.1 (List.mem_map_of_mem he) k (List.mem_singleton_self k)

theorem IsChain.leads (h : IsChain g tbl) (ht : Reaches g tbl t) (he : e ∈ (g t).entries) (hu : u ∈ tables e) :
    ∃ l, Leads g t l e.1 u ∧ e.2 = .table u := by
  have hkey := h.key t ht
  have hlast := h.last t ht
  rcases List.eq_nil_or_concat (g t).entries with hnil | ⟨l, e', hl⟩
  · rw [hnil] at he
    cases he
  · rw [List.concat_eq_append] at hl
    rw [hl] at he hkey hlast
    rw [List.dropLast_concat] at hlast
    have hbefore : ∀ e ∈ l, tables e = [] := by
      intro e he
      rw [TableOp.tables, hkey e (List.mem_append_left _ he), hlast e he]
      rfl
    rcases List.mem_append.1 he with he | he
    · rw [hbefore e he] at hu
      cases hu
    · obtain rfl := List.mem_singleton.1 he
      obtain ⟨k, v⟩ := e
      have hk : k.tables = [] := hkey (k, v) (List.mem_append_right _ (List.mem_singleton_self _))
      rw [TableOp.tables, hk, List.nil_append] at hu
      cases v with
      | scalar s => cases hu
      | table u' =>
        obtain rfl := List.mem_singleton.1 hu
        exact ⟨l, ⟨hl, hk, hbefore⟩, rfl⟩

theorem IsChain.next_unique (h : IsChain g tbl) : Relator.RightUnique (Next g tbl) := by
  rintro t u u' ⟨ht, e, he, hu⟩ ⟨-, e', he', hu'⟩
  obtain ⟨l, hl, heq⟩ := h.leads ht he hu
  obtain ⟨l', hl', heq'⟩ := h.leads ht he' hu'
  have hentries := hl.entries.symm.trans hl'.entries
  obtain ⟨-, hlast⟩ := List.append_inj' hentries rfl
  obtain ⟨-, hvalue⟩ := Prod.mk.inj (List.singleton_inj.1 hlast)
  exact Value.table.inj hvalue

theorem reaches_iff_next : Reaches g tbl t ↔ ReflTransGen (Next g tbl) tbl t := by
  constructor
  · intro h
    induction h with
    | refl => exact .refl
    | tail hreached hstep ih => exact ih.tail ⟨hreached, hstep⟩
  · exact fun h => h.lift id fun _ _ hnext => hnext.2

theorem IsChain.total (h : IsChain g tbl) (ht : Reaches g tbl t) (hu : Reaches g tbl u) :
    ReflTransGen (Next g tbl) t u ∨ ReflTransGen (Next g tbl) u t :=
  ReflTransGen.total_of_right_unique h.next_unique (reaches_iff_next.1 ht) (reaches_iff_next.1 hu)

end Chain

/-! ## The call -/

section Calls

variable {T S : Type} [DecidableEq T] [DecidableEq S] [Scalar S] {g : Graph T S} {tbl t u : T} {e : Entry T S}
  {k : Value T S} {l : List (Entry T S)} {visited visited' : Visited T S} {c c' : T × Visited T S}

/-- What an entry that leads nowhere does to `visited`. -/
def note (visited : Visited T S) (e : Entry T S) : Visited T S :=
  if isNew visited e = true then mark visited e else visited

theorem steps_note (h : ∀ e ∈ l, tables e = []) (rest : List (Item T S)) (visited : Visited T S) :
    ReflTransGen (Agenda.Step (act g)) (l.map .entry ++ rest, visited) (rest, l.foldl note visited) := by
  induction l generalizing visited with
  | nil => exact .refl
  | cons e l ih =>
    obtain ⟨he, hl⟩ := List.forall_mem_cons.1 h
    have hact : act g (.entry e) visited = ([], note visited e) := by
      rw [act, note, he]
      split <;> rfl
    have hstep : Agenda.Step (act g) (.entry e :: (l.map .entry ++ rest), visited) _ := .task _ _ _
    rw [hact] at hstep
    exact .head hstep (ih hl (note visited e))

/-- The call for one table goes on to the call for the next one. -/
def Goes (g : Graph T S) (c c' : T × Visited T S) : Prop :=
  ∃ l k, Leads g c.1 l k c'.1 ∧ isNew (l.foldl note c.2) (k, .table c'.1) = true ∧
    c'.2 = mark (l.foldl note c.2) (k, .table c'.1)

theorem Goes.steps (h : Goes g c c') :
    TransGen (Agenda.Step (act g)) ([.table c.1], c.2) ([.table c'.1], c'.2) := by
  obtain ⟨l, k, hleads, hnew, hvisited⟩ := h
  have hfirst : Agenda.Step (act g) ([.table c.1], c.2) _ := .task _ _ _
  have hbefore := steps_note (g := g) hleads.before [.entry (k, .table c'.1)] c.2
  have hlast : Agenda.Step (act g) ([.entry (k, .table c'.1)], l.foldl note c.2) _ := .task _ _ _
  rw [act, List.append_nil, hleads.entries, List.map_append] at hfirst
  rw [act, if_pos hnew, hleads.tables, ← hvisited] at hlast
  exact (TransGen.head' hfirst hbefore).tail hlast

/-- What is under a key after entries that lead nowhere, when it is a table: it was there before. -/
theorem note_eq_table (h : ∀ e ∈ l, tables e = []) (hk : l.foldl note visited k = some (.table u)) :
    visited k = some (.table u) ∧ ∀ e ∈ l, e.1 ≠ k := by
  induction l generalizing visited with
  | nil => exact ⟨hk, List.forall_mem_nil _⟩
  | cons e l ih =>
    obtain ⟨he, hl⟩ := List.forall_mem_cons.1 h
    obtain ⟨hnote, hl'⟩ := ih hl hk
    have hscalar : e.2 ≠ .table u := by
      intro heq
      rw [tables, heq] at he
      exact absurd he (List.append_ne_nil_of_right_ne_nil _ (List.cons_ne_nil u []))
    rw [note] at hnote
    split at hnote
    case isTrue hnew =>
      rw [mark_apply] at hnote
      split at hnote
      case isTrue hek => exact absurd (Option.some.inj hnote) hscalar
      case isFalse hek => exact ⟨hnote, List.forall_mem_cons.2 ⟨fun heq => hek heq.symm, hl'⟩⟩
    case isFalse hold =>
      refine ⟨hnote, List.forall_mem_cons.2 ⟨fun heq => ?_, hl'⟩⟩
      -- a table under the key would make the entry new
      subst heq
      refine hold ?_
      rw [isNew, hnote]
      cases hvalue : e.2 with
      | table u' =>
        rw [tables, hvalue] at he
        exact absurd he (List.append_ne_nil_of_right_ne_nil _ (List.cons_ne_nil u' []))
      | scalar s => rfl

/-- Since a table was set under a key, no table has been passed that has another value for it. -/
theorem exists_last (h : ReflTransGen (Goes g) (tbl, fun _ => none) c) (hk : c.2 k = some (.table u)) :
    ∃ visited, ReflTransGen (fun c c' => Goes g c c' ∧ ∀ e ∈ (g c.1).entries, e.1 ≠ k) (u, visited) c := by
  induction h with
  | refl => cases hk
  | @tail c c' _ hgoes ih =>
    obtain ⟨l, k', hleads, hnew, hvisited⟩ := id hgoes
    rw [hvisited, mark_apply] at hk
    split at hk
    case isTrue =>
      obtain rfl := Value.table.inj (Option.some.inj hk)
      exact ⟨c'.2, .refl⟩
    case isFalse hne =>
      obtain ⟨hbefore, hl⟩ := note_eq_table hleads.before hk
      obtain ⟨visited, hpath⟩ := ih hbefore
      refine ⟨visited, hpath.tail ⟨hgoes, fun e he => ?_⟩⟩
      rw [hleads.entries] at he
      rcases List.mem_append.1 he with he | he
      · exact hl e he
      · obtain rfl := List.mem_singleton.1 he
        exact fun heq => hne heq.symm

theorem Goes.next (h : Goes g c c') (hreached : Reaches g tbl c.1) : Next g tbl c.1 c'.1 := by
  obtain ⟨l, k, hleads, -, -⟩ := h
  exact ⟨hreached, _, hleads.mem, by rw [hleads.tables]; exact List.mem_singleton_self _⟩

theorem next_of_goes (h : ReflTransGen (Goes g) c c') (hreached : Reaches g tbl c.1) :
    ReflTransGen (Next g tbl) c.1 c'.1 := by
  induction h with
  | refl => exact .refl
  | tail _ hgoes ih => exact ih.tail (hgoes.next (hreached.trans (ih.lift id fun _ _ hnext => hnext.2)))

end Calls

/-! ## Feuds in a chain -/

section Feud

variable {T S : Type} [DecidableEq T] [DecidableEq S] [Scalar S] {g : Graph T S} {tbl t u x : T} {W : Set (Entry T S)}
  {e : Entry T S} {k : Value T S} {visited : Visited T S} {c c' : T × Visited T S}

/-- The tables that the entries of a feud lead to. -/
def feudTables (g : Graph T S) (tbl : T) (W : Set (Entry T S)) : Set T :=
  {t | Reaches g tbl t ∧ ∃ e ∈ W, t ∈ tables e}

omit [DecidableEq S] in
theorem Feud.prev (hfeud : Feud g tbl W) : ∀ t ∈ feudTables g tbl W, ∃ s ∈ feudTables g tbl W, Next g tbl s t := by
  rintro t ⟨-, e, he, ht⟩
  obtain ⟨e', he', s, hs, hreached, hmem⟩ := hfeud.source e he
  exact ⟨s, ⟨hreached, e', he', hs⟩, hreached, e, hmem, ht⟩

omit [DecidableEq S] in
theorem Feud.tables_nonempty (hfeud : Feud g tbl W) (hnonempty : W.Nonempty) : (feudTables g tbl W).Nonempty := by
  obtain ⟨e, he⟩ := hnonempty
  obtain ⟨e', he', t, ht, hreached, -⟩ := hfeud.source e he
  exact ⟨t, hreached, e', he', ht⟩

/-- What is reached from the end of a path that goes round is on the path. -/
theorem exists_passed (hchain : IsChain g tbl) {R : T × Visited T S → T × Visited T S → Prop}
    (hR : ∀ c c', R c c' → Goes g c c') (hpath : ReflTransGen R (u, visited) c) (hnext : Next g tbl c.1 u)
    (hx : ReflTransGen (Next g tbl) c.1 x) : ∃ visited', ReflTransGen R (x, visited') c := by
  induction hx with
  | refl => exact ⟨c.2, .refl⟩
  | tail _ hstep ih =>
    obtain ⟨visited', hrest⟩ := ih
    rcases ReflTransGen.cases_head hrest with heq | ⟨c', hgoes, hrest'⟩
    · subst heq
      rw [hchain.next_unique hstep hnext]
      exact ⟨visited, hpath⟩
    · rw [hchain.next_unique hstep ((hR _ _ hgoes).next hstep.1)]
      exact ⟨c'.2, hrest'⟩

variable [Finite T]

omit [DecidableEq S] in
/-- What leads on in a table of a feud is of the feud. -/
theorem Feud.leads (hfeud : Feud g tbl W) (hchain : IsChain g tbl) (ht : t ∈ feudTables g tbl W)
    (he : e ∈ (g t).entries) (hu : u ∈ tables e) : e ∈ W := by
  have hfinite := Set.toFinite (feudTables g tbl W)
  have hnext : Next g tbl t u := ⟨ht.1, e, he, hu⟩
  obtain ⟨-, e', he', hu'⟩ := mem_of_reaches hchain.next_unique hfinite hfeud.prev ht (.single hnext)
  obtain ⟨e'', he'', s, hs, hreached, hmem⟩ := hfeud.source e' he'
  have heq : s = t := eq_of_next hchain.next_unique hfinite hfeud.prev ⟨hreached, e'', he'', hs⟩ ht
    ⟨hreached, e', hmem, hu'⟩ hnext
  subst heq
  obtain ⟨l, hl, hvalue⟩ := hchain.leads hreached he hu
  obtain ⟨l', hl', hvalue'⟩ := hchain.leads hreached hmem hu'
  obtain ⟨-, hlast⟩ := List.append_inj' (hl.entries.symm.trans hl'.entries) rfl
  have hkey := (Prod.mk.inj (List.singleton_inj.1 hlast)).1
  rwa [Prod.ext hkey (hvalue.trans hvalue'.symm)]

omit [DecidableEq S] in
/-- Each table of a chain with a feud leads on. -/
theorem Feud.exists_next (hfeud : Feud g tbl W) (hchain : IsChain g tbl) (hnonempty : W.Nonempty)
    (ht : Reaches g tbl t) : ∃ u, Next g tbl t u := by
  have hunique := hchain.next_unique
  have hfinite := Set.toFinite (feudTables g tbl W)
  obtain ⟨s, hs⟩ := hfeud.tables_nonempty hnonempty
  rcases hchain.total ht hs.1 with hto | hback
  · rcases ReflTransGen.cases_head hto with rfl | ⟨u, hnext, -⟩
    · obtain ⟨u, -, hnext⟩ := Orbit.exists_next hunique hfinite hfeud.prev hs
      exact ⟨u, hnext⟩
    · exact ⟨u, hnext⟩
  · have hmem := mem_of_reaches hunique hfinite hfeud.prev hs hback
    obtain ⟨u, -, hnext⟩ := Orbit.exists_next hunique hfinite hfeud.prev hmem
    exact ⟨u, hnext⟩

omit [DecidableEq S] in
/-- Around from a table that leads back to itself, there is another value for the key of the entry that leads on. -/
theorem Feud.exists_rival (hfeud : Feud g tbl W) (hchain : IsChain g tbl) (hnonempty : W.Nonempty)
    (haround : TransGen (Next g tbl) t t) (ht : Reaches g tbl t) (he : e ∈ (g t).entries) (hu : u ∈ tables e) :
    ∃ x e', ReflTransGen (Next g tbl) t x ∧ e' ∈ (g x).entries ∧ e'.1 = e.1 ∧
      ¬ (e'.2.truthy = true ∧ e'.2.eq e.2 = true) := by
  have hunique := hchain.next_unique
  have hfinite := Set.toFinite (feudTables g tbl W)
  have hmem : t ∈ feudTables g tbl W := by
    obtain ⟨s, hs⟩ := hfeud.tables_nonempty hnonempty
    refine mem_of_reaches hunique hfinite hfeud.prev hs ?_
    exact (hchain.total ht hs.1).elim (back_of_around hunique haround) id
  obtain ⟨e', he', hkey, hother⟩ := hfeud.rival e (hfeud.leads hchain hmem he hu)
  obtain ⟨e'', he'', x, hx, hreached, hxmem⟩ := hfeud.source e' he'
  refine ⟨x, e', ?_, hxmem, hkey, hother⟩
  refine (hchain.total ht hreached).elim id fun hback => ?_
  exact around_of_mem hunique hfinite hfeud.prev ⟨hreached, e'', he'', hx⟩ hback haround

/-- A call on a chain that leads to a feud goes on. -/
theorem goes_on (hchain : IsChain g tbl) (hfeud : Feud g tbl W) (hnonempty : W.Nonempty)
    (h : ReflTransGen (Goes g) (tbl, fun _ => none) c) : ∃ c', Goes g c c' := by
  have hreached : Reaches g tbl c.1 := reaches_iff_next.2 (next_of_goes h .refl)
  obtain ⟨u, hnext⟩ := hfeud.exists_next hchain hnonempty hreached
  obtain ⟨-, e, he, hu⟩ := id hnext
  obtain ⟨l, hleads, hvalue⟩ := hchain.leads hreached he hu
  by_contra hstop
  have hold : isNew (l.foldl note c.2) (e.1, .table u) = false :=
    Bool.eq_false_iff.2 fun hnew => hstop ⟨(u, mark (l.foldl note c.2) (e.1, .table u)), l, e.1, hleads, hnew, rfl⟩
  -- the value has been set already, and since then the call has come round without another value for the key
  obtain ⟨v, hv, -, heq⟩ := isNew_eq_false_iff.1 hold
  have hset : l.foldl note c.2 e.1 = some (.table u) := by
    cases v with
    | scalar s => cases heq
    | table u' => rwa [of_decide_eq_true heq] at hv
  obtain ⟨visited, hpath⟩ := exists_last h (note_eq_table hleads.before hset).1
  have hgoes : ReflTransGen (Goes g) (u, visited) c := hpath.lift id fun _ _ hgoes => hgoes.1
  have haround : TransGen (Next g tbl) c.1 c.1 := .head' hnext (next_of_goes hgoes (hreached.tail ⟨e, he, hu⟩))
  obtain ⟨x, e', hx, he', hkey, hother⟩ := hfeud.exists_rival hchain hnonempty haround hreached he hu
  obtain ⟨visited', hrest⟩ := exists_passed hchain (fun _ _ hgoes => hgoes.1) hpath hnext hx
  rcases ReflTransGen.cases_head hrest with heq | ⟨c', ⟨-, hfree⟩, -⟩
  · obtain rfl : x = c.1 := congrArg Prod.fst heq
    rw [hleads.entries] at he'
    rcases List.mem_append.1 he' with hl | hlast
    · exact hleads.key_ne e' hl hkey
    · obtain rfl := List.mem_singleton.1 hlast
      rw [hvalue] at hother
      exact hother ⟨rfl, decide_eq_true rfl⟩
  · exact hfree e' he' hkey

theorem not_ends_of_feud (hchain : IsChain g tbl) (hfeud : Feud g tbl W) (hnonempty : W.Nonempty) : ¬ Ends g tbl := by
  rw [ends_iff_done]
  refine Agenda.not_done_of_goes_on (c := (Item.table tbl, fun _ => none))
    (P := fun i => ∃ t, i.1 = .table t ∧ ReflTransGen (Goes g) (tbl, fun _ => none) (t, i.2)) ?_ ⟨tbl, rfl, .refl⟩
  rintro ⟨i, visited⟩ ⟨t, rfl, h⟩
  obtain ⟨c', hgoes⟩ := goes_on hchain hfeud hnonempty h
  exact ⟨(.table c'.1, c'.2), hgoes.steps, c'.1, rfl, h.tail hgoes⟩

/-- **A chain of tables can be written iff it leads to no feud.** -/
theorem ends_iff_of_isChain (hchain : IsChain g tbl) : Ends g tbl ↔ ∀ W, Feud g tbl W → ¬ W.Nonempty :=
  ⟨fun hends _ hfeud hnonempty => not_ends_of_feud hchain hfeud hnonempty hends, ends_of_not_feud⟩

end Feud

end RoundGame.Base.TableOp
