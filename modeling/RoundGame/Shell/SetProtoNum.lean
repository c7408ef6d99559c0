import RoundGame.Lib.FirstFree
import RoundGame.Shell.ProcessProto

/-!
# The numbers that a run gives

`set_proto_num` numbers the messages that have no number in the section: a module keeps the block of 1000 of its numbers
or gets a block that is free, and its new messages get the first numbers of the block that are not kept.

Numbers that are kept are texts, and the search for a free one looks for integers: a new message gets the first number
of the block even where it is kept. So the numbers stay distinct, each module in a block of its own, exactly when the
new messages of every module fit into its block below the numbers it keeps (`stable_iff`).
-/

namespace RoundGame.Shell

/-! ## `set_proto_num` -/

/-- `mod2start`, `start2mod` and `prokeep`: the blocks of the modules, and the numbers that each module keeps. -/
structure Starts where
  mod2start : Fields Str Nat := Fields.empty
  start2mod : Fields Nat Str := Fields.empty
  prokeep : Fields Str (List Num) := Fields.empty

/-- `prokeep[mod]`, which the first loop makes for every module. -/
def Starts.keep (st : Starts) (mod : Str) : List Num := (st.prokeep.get mod).getD []

/-- `mod2start[mod] = start` and `start2mod[start] = mod`. -/
def Starts.setStart (st : Starts) (mod : Str) (start : Nat) : Starts :=
  { st with mod2start := st.mod2start.put mod (some start), start2mod := st.start2mod.put start (some mod) }

/-- `prokeep[mod][val] = 1`. -/
def Starts.setKeep (st : Starts) (mod : Str) (val : Num) : Starts :=
  { st with prokeep := st.prokeep.put mod (some (val :: st.keep mod)) }

/-- A message of the first loop. -/
def Starts.message (mod : Str) (st : Starts) (e : Str × Num) : Starts :=
  let st := if e.2 ≠ .int 0 ∧ (st.mod2start.get mod).isNone then st.setStart mod (e.2.toInt / 1000) else st
  if e.2 ≠ .int 0 then st.setKeep mod e.2 else st

/-- A module of the first loop. -/
def Starts.module (order : Order) (st : Starts) (e : Str × Fields Str Num) : Starts :=
  let st := { st with prokeep := st.prokeep.put e.1 (some []) }
  if 0 < e.2.entries.length then (order.items (.startsOf e.1) e.2).foldl (Starts.message e.1) st else st

/-- A message of the second loop, with the numbers that are kept in its module. -/
def giveNumber (pro_start : Nat) (s : List Num × Fields Str Num) (e : Str × Num) : List Num × Fields Str Num :=
  if e.2 = .int 0 then
    let i := firstFree (fun i => decide (Num.int (pro_start * 1000 + i) ∈ s.1)) s.1.length 0
    (.int (pro_start * 1000 + i) :: s.1, s.2.put e.1 (some (.int (pro_start * 1000 + i))))
  else s

/-- The variables of the second loop. -/
structure Numbering where
  start : Nat := 1
  starts : Starts
  protos : Defines

/-- `pro_start`, for which a module without a number gets a free block. -/
def Numbering.proStart (s : Numbering) (mod : Str) : Nat × Numbering :=
  match s.starts.mod2start.get mod with
  | some pro_start => (pro_start, s)
  | none =>
    let start := firstFree (fun i => (s.starts.start2mod.get i).isSome) s.starts.start2mod.keys.length s.start
    (start, { s with start := start, starts := s.starts.setStart mod start })

/-- A module of the second loop. -/
def Numbering.module (order : Order) (s : Numbering) (e : Str × Fields Str Num) : Numbering :=
  let (pro_start, s) := s.proStart e.1
  let (keep, pro_defines) := (order.items (.numbersOf e.1) e.2).foldl (giveNumber pro_start) (s.starts.keep e.1, e.2)
  { s with starts := { s.starts with prokeep := s.starts.prokeep.put e.1 (some keep) }
           protos := s.protos.put e.1 (some pro_defines) }

def setProtoNum (order : Order) (protos : Defines) : Defines :=
  let starts := (order.items .starts protos).foldl (Starts.module order) {}
  ((order.items .numbers protos).foldl (Numbering.module order) { starts, protos }).protos

/-! ## The first loop -/

/-- The numbers that a merge has: the texts of the section, of which every module has its own block, and 0. -/
structure Mixed (protos : Defines) : Prop where
  vals : Each (fun val => val = .int 0 ∨ val.isText) protos
  blocks : ∀ mod pro val mod' pro' val', num protos mod pro = some val → num protos mod' pro' = some val' →
    val.isText → val'.isText → (val.toInt / 1000 = val'.toInt / 1000 ↔ mod = mod')

/-- What the first loop keeps: the blocks are those of numbers that are kept, and no integer is kept. -/
structure Starts.Inv (protos : Defines) (st : Starts) : Prop where
  inverse : PMap.Inverse st.mod2start.get st.start2mod.get
  own : ∀ mod start, st.mod2start.get mod = some start →
    ∃ pro val, num protos mod pro = some val ∧ val.isText ∧ val.toInt / 1000 = start
  texts : ∀ mod n, .int n ∉ st.keep mod

section First

variable {protos : Defines} {st : Starts} {mod pro : Str} {val : Num}

theorem isText_of_ne (h : Mixed protos) (hval : num protos mod pro = some val) (hne : val ≠ .int 0) : val.isText :=
  (h.vals mod pro val hval).resolve_left hne

/-- What a turn of the loop over the messages does. -/
theorem message_cases (mod : Str) (st : Starts) (e : Str × Num) : e.2 = .int 0 ∧ st.message mod e = st ∨
    e.2 ≠ .int 0 ∧ st.mod2start.get mod = none ∧
      st.message mod e = (st.setStart mod (e.2.toInt / 1000)).setKeep mod e.2 ∨
    e.2 ≠ .int 0 ∧ (st.mod2start.get mod).isSome ∧ st.message mod e = st.setKeep mod e.2 := by
  unfold Starts.message
  by_cases hne : e.2 = .int 0
  · exact Or.inl ⟨hne, by simp [hne]⟩
  · cases hmod : st.mod2start.get mod with
    | none => exact Or.inr (Or.inl ⟨hne, rfl, by simp [hne]⟩)
    | some start => exact Or.inr (Or.inr ⟨hne, rfl, by simp [hne]⟩)

theorem keep_setKeep (st : Starts) (mod mod' : Str) (val : Num) :
    (st.setKeep mod val).keep mod' = if mod' = mod then val :: st.keep mod else st.keep mod' := by
  simp only [Starts.keep, Starts.setKeep, Fields.get_put]
  split <;> rfl

/-- A block that nobody has. -/
theorem Starts.Inv.inverse_setStart (h : PMap.Inverse st.mod2start.get st.start2mod.get) {start : Nat}
    (hmod : st.mod2start.get mod = none) (hstart : st.start2mod.get start = none) :
    PMap.Inverse (st.setStart mod start).mod2start.get (st.setStart mod start).start2mod.get := by
  simp only [Starts.setStart, Fields.get_put_eq_update]
  exact h.insert hmod hstart

theorem Starts.Inv.setStart (h : st.Inv protos) (hm : Mixed protos) (hval : num protos mod pro = some val)
    (htext : val.isText) (hnone : st.mod2start.get mod = none) : (st.setStart mod (val.toInt / 1000)).Inv protos where
  inverse := by
    refine inverse_setStart h.inverse hnone ?_
    -- another module with the block would have a number in it
    cases hmod : st.start2mod.get (val.toInt / 1000) with
    | none => rfl
    | some mod' =>
      have hmod' := (h.inverse mod' _).2 hmod
      obtain ⟨pro', val', hval', htext', hblock⟩ := h.own mod' _ hmod'
      have heq : mod' = mod := (hm.blocks mod' pro' val' mod pro val hval' hval htext' htext).1 hblock
      rw [heq, hnone] at hmod'
      cases hmod'
  own := by
    intro mod' start hstart
    rw [Starts.setStart, Fields.get_put] at hstart
    split at hstart
    · rename_i heq
      cases hstart
      exact ⟨pro, val, heq ▸ hval, htext, rfl⟩
    · exact h.own mod' start hstart
  texts := h.texts

theorem Starts.Inv.setKeep (h : st.Inv protos) (htext : val.isText) : (st.setKeep mod val).Inv protos where
  inverse := h.inverse
  own := h.own
  texts := by
    intro mod' n hn
    rw [keep_setKeep] at hn
    split at hn
    · rcases List.mem_cons.1 hn with rfl | hn
      · cases htext
      · exact h.texts mod n hn
    · exact h.texts mod' n hn

theorem Starts.Inv.message (h : st.Inv protos) (hm : Mixed protos) (hval : num protos mod pro = some val) :
    (st.message mod (pro, val)).Inv protos := by
  rcases message_cases mod st (pro, val) with ⟨-, heq⟩ | ⟨hne, hnone, heq⟩ | ⟨hne, -, heq⟩
  · rwa [heq]
  · have htext := isText_of_ne hm hval hne
    rw [heq]
    exact (h.setStart hm hval htext hnone).setKeep htext
  · rw [heq]
    exact h.setKeep (isText_of_ne hm hval hne)

theorem Starts.Inv.clear (h : st.Inv protos) (mod : Str) :
    ({ st with prokeep := st.prokeep.put mod (some []) } : Starts).Inv protos where
  inverse := h.inverse
  own := h.own
  texts := by
    intro mod' n
    simp only [Starts.keep, Fields.get_put]
    split
    · exact List.not_mem_nil
    · exact h.texts mod' n

theorem Starts.Inv.module (order : Order) (h : st.Inv protos) (hm : Mixed protos) {t : Fields Str Num}
    (ht : protos.get mod = some t) : (st.module order (mod, t)).Inv protos := by
  simp only [Starts.module]
  split
  · refine List.foldlRecOn (motive := Starts.Inv protos) _ _ (h.clear mod) fun st hst e he => ?_
    refine hst.message hm ?_
    rw [num, ht]
    exact (order.mem_items _ t).1 he
  · exact h.clear mod

theorem inv_starts (order : Order) (hm : Mixed protos) :
    ((order.items .starts protos).foldl (Starts.module order) {}).Inv protos := by
  refine List.foldlRecOn (motive := Starts.Inv protos) _ _ ⟨PMap.Inverse.empty, ?_, ?_⟩ fun st hst e he => ?_
  · exact fun _ _ h => nomatch h
  · exact fun _ _ => List.not_mem_nil
  · exact hst.module order hm ((order.mem_items .starts protos).1 he)

/-- A module that has a block does not lose it. -/
theorem isSome_message (e : Str × Num) (mod' : Str) (h : (st.mod2start.get mod).isSome) :
    ((st.message mod' e).mod2start.get mod).isSome := by
  rcases message_cases mod' st e with ⟨-, heq⟩ | ⟨-, -, heq⟩ | ⟨-, -, heq⟩
  · rwa [heq]
  · rw [heq]
    simp only [Starts.setKeep, Starts.setStart, Fields.get_put]
    split
    · rfl
    · exact h
  · rwa [heq]

theorem isSome_module (order : Order) (e : Str × Fields Str Num) (h : (st.mod2start.get mod).isSome) :
    ((st.module order e).mod2start.get mod).isSome := by
  simp only [Starts.module]
  split
  · exact List.foldlRecOn (motive := fun st : Starts => (st.mod2start.get mod).isSome) _ _ h
      fun st hst e' _ => isSome_message e' e.1 hst
  · exact h

/-- A module with a number has a block after the first loop. -/
theorem isSome_starts (order : Order) (hval : num protos mod pro = some val) (htext : val.isText) :
    (((order.items .starts protos).foldl (Starts.module order) {}).mod2start.get mod).isSome := by
  obtain ⟨t, ht, hpro⟩ := Option.bind_eq_some_iff.1 hval
  have hmem := (order.mem_items (.startsOf mod) t).2 hpro
  have hlen : 0 < t.entries.length := List.length_pos_of_mem ((order.perm (.startsOf mod) t).mem_iff.1 hmem)
  refine Fields.foldl_reaches (P := fun st : Starts => (st.mod2start.get mod).isSome)
    (fun st e h => isSome_module order e h) ((order.mem_items .starts protos).2 ht) (fun st => ?_) _
  simp only [Starts.module, if_pos hlen]
  refine Fields.foldl_reaches (P := fun st : Starts => (st.mod2start.get mod).isSome)
    (fun st e h => isSome_message e mod h) hmem (fun st => ?_) _
  rcases message_cases mod st (pro, val) with ⟨hzero, -⟩ | ⟨-, -, heq⟩ | ⟨-, hsome, heq⟩
  · cases hzero
    cases htext
  · rw [heq]
    exact Option.isSome_iff_exists.2 ⟨_, Fields.get_put_self _⟩
  · rwa [heq]

/-- After the first loop a module with a number has the block of the number. -/
theorem start_of_text (order : Order) (hm : Mixed protos) (hval : num protos mod pro = some val) (htext : val.isText) :
    ((order.items .starts protos).foldl (Starts.module order) {}).mod2start.get mod = some (val.toInt / 1000) := by
  obtain ⟨start, hstart⟩ := Option.isSome_iff_exists.1 (isSome_starts order hval htext)
  obtain ⟨pro', val', hval', htext', hblock⟩ := (inv_starts order hm).own mod start hstart
  rw [hstart, ← hblock, (hm.blocks mod pro' val' mod pro val hval' hval htext' htext).2 rfl]

end First

/-! ## The second loop -/

/-- The messages without a number, in the order of a loop. -/
def news (l : List (Str × Num)) : List Str := (l.filter fun e => e.2 = .int 0).map Prod.fst

section Second

variable {pro_start k : Nat} {keep : List Num} {l : List (Str × Num)}

/-- When the integers that are taken are the first `k` of the block, the next one is given. -/
theorem giveNumber_new (hkeep : ∀ i, .int (pro_start * 1000 + i) ∈ keep ↔ i < k) (t : Fields Str Num) (pro : Str) :
    giveNumber pro_start (keep, t) (pro, .int 0) =
      (.int (pro_start * 1000 + k) :: keep, t.put pro (some (.int (pro_start * 1000 + k)))) := by
  have hinj : Function.Injective fun i => Num.int (pro_start * 1000 + i) := by
    intro i j h
    exact Nat.add_left_cancel (Num.int.inj h)
  have hfree := firstFree_free (fun i => decide (Num.int (pro_start * 1000 + i) ∈ keep)) hinj
    (fun i hi => of_decide_eq_true hi) 0
  have hi : firstFree (fun i => decide (Num.int (pro_start * 1000 + i) ∈ keep)) keep.length 0 = k := by
    rcases Nat.lt_trichotomy (firstFree (fun i => decide (Num.int (pro_start * 1000 + i) ∈ keep)) keep.length 0) k
      with hlt | heq | hgt
    · exact absurd ((hkeep _).2 hlt) (of_decide_eq_false hfree)
    · exact heq
    · have htaken := taken_of_lt_firstFree (Nat.zero_le k) hgt
      exact absurd ((hkeep k).1 (of_decide_eq_true htaken)) (Nat.lt_irrefl k)
  simp only [giveNumber, if_true, hi]

/-- The new messages of a module get the numbers of its block in order. -/
theorem get_foldl_giveNumber (hl : (l.map Prod.fst).Nodup) (hkeep : ∀ i, .int (pro_start * 1000 + i) ∈ keep ↔ i < k)
    (t : Fields Str Num) (pro : Str) : (l.foldl (giveNumber pro_start) (keep, t)).2.get pro =
      if pro ∈ news l then some (.int (pro_start * 1000 + (k + (news l).idxOf pro))) else t.get pro := by
  induction l generalizing k keep t with
  | nil => rfl
  | cons e l ih =>
    obtain ⟨pro', val⟩ := e
    rw [List.map_cons, List.nodup_cons] at hl
    rw [List.foldl_cons]
    by_cases hzero : val = .int 0
    · subst hzero
      have hnext : ∀ i, .int (pro_start * 1000 + i) ∈ Num.int (pro_start * 1000 + k) :: keep ↔ i < k + 1 := by
        intro i
        rw [List.mem_cons, hkeep, Num.int.injEq]
        omega
      have hnews : news ((pro', Num.int 0) :: l) = pro' :: news l := rfl
      rw [giveNumber_new hkeep, ih hl.2 hnext, hnews, Fields.get_put]
      by_cases hpro : pro = pro'
      · subst hpro
        have hnot : pro ∉ news l := fun h => hl.1 ((List.filter_sublist.map Prod.fst).subset h)
        simp [hnot]
      · simp only [List.mem_cons, hpro, false_or, if_false, List.idxOf_cons_ne _ (Ne.symm hpro)]
        split
        · rw [Nat.succ_add_eq_add_succ]
        · rfl
    · have hturn : giveNumber pro_start (keep, t) (pro', val) = (keep, t) := if_neg hzero
      have hnews : news ((pro', val) :: l) = news l := by simp [news, hzero]
      rw [hturn, ih hl.2 hkeep, hnews]

variable {order : Order} {protos : Defines} {s : Numbering} {mod pro : Str}

/-- The new messages of a module. -/
def newsOf (order : Order) (protos : Defines) (mod : Str) : List Str :=
  ((protos.get mod).map fun t => news (order.items (.numbersOf mod) t)).getD []

theorem mem_newsOf : pro ∈ newsOf order protos mod ↔ num protos mod pro = some (.int 0) := by
  unfold newsOf num
  cases protos.get mod with
  | none => simp
  | some t => simp [news, Order.mem_items]

theorem nodup_newsOf : (newsOf order protos mod).Nodup := by
  unfold newsOf
  cases protos.get mod with
  | none => exact List.nodup_nil
  | some t => exact (order.nodup (.numbersOf mod) t).sublist (List.filter_sublist.map Prod.fst)

/-- What the second loop keeps, with the modules that it has not come to. -/
structure Numbering.Inv (order : Order) (protos : Defines) (todo : List Str) (s : Numbering) : Prop where
  inverse : PMap.Inverse s.starts.mod2start.get s.starts.start2mod.get
  kept : ∀ mod pro val, num protos mod pro = some val → val.isText →
    s.starts.mod2start.get mod = some (val.toInt / 1000)
  texts : ∀ mod ∈ todo, ∀ n, .int n ∉ s.starts.keep mod
  done : ∀ mod, mod ∉ todo → ∀ t, protos.get mod = some t → ∃ pro_start u,
    s.starts.mod2start.get mod = some pro_start ∧ s.protos.get mod = some u ∧ ∀ pro, u.get pro =
      if pro ∈ newsOf order protos mod then some (.int (pro_start * 1000 + (newsOf order protos mod).idxOf pro))
      else t.get pro
  gone : ∀ mod, protos.get mod = none → s.protos.get mod = none

/-- A module gets its block, or a free one. -/
theorem Numbering.Inv.proStart {todo : List Str} (h : s.Inv order protos todo) (mod : Str) :
    ∃ pro_start s', s.proStart mod = (pro_start, s') ∧ s'.Inv order protos todo ∧
      s'.starts.mod2start.get mod = some pro_start := by
  refine ⟨(s.proStart mod).1, (s.proStart mod).2, rfl, ?_⟩
  unfold Numbering.proStart
  cases hmod : s.starts.mod2start.get mod with
  | some pro_start => exact ⟨h, hmod⟩
  | none =>
    have hfree : s.starts.start2mod.get (firstFree (fun i => (s.starts.start2mod.get i).isSome)
        s.starts.start2mod.keys.length s.start) = none := by
      have hkeys : ∀ i, (s.starts.start2mod.get i).isSome → i ∈ s.starts.start2mod.keys := fun i => Fields.mem_keys.2
      simpa using firstFree_free _ Function.injective_id hkeys s.start
    have hother : ∀ mod' start, s.starts.mod2start.get mod' = some start → ∀ start',
        (s.starts.setStart mod start').mod2start.get mod' = some start := by
      intro mod' start hstart start'
      rw [Starts.setStart, Fields.get_put_of_ne _, hstart]
      rintro rfl
      rw [hmod] at hstart
      cases hstart
    refine ⟨⟨Starts.Inv.inverse_setStart h.inverse hmod hfree, ?_, h.texts, ?_, h.gone⟩, Fields.get_put_self _⟩
    · exact fun mod' pro val hval htext => hother mod' _ (h.kept mod' pro val hval htext) _
    · intro mod' hnot t ht
      obtain ⟨pro_start, u, hstart, hu⟩ := h.done mod' hnot t ht
      exact ⟨pro_start, u, hother mod' pro_start hstart _, hu⟩

theorem Numbering.Inv.module {todo : List Str} (h : s.Inv order protos (mod :: todo)) {t : Fields Str Num}
    (ht : protos.get mod = some t) (hnot : mod ∉ todo) : (s.module order (mod, t)).Inv order protos todo := by
  obtain ⟨pro_start, s', hs', h', hstart⟩ := h.proStart mod
  have hnews : newsOf order protos mod = news (order.items (.numbersOf mod) t) := by
    rw [newsOf, ht]
    rfl
  have hkeep : ∀ i, .int (pro_start * 1000 + i) ∈ s'.starts.keep mod ↔ i < 0 := by
    intro i
    exact iff_of_false (h'.texts mod List.mem_cons_self _) (Nat.not_lt_zero i)
  have hnumbers := get_foldl_giveNumber (order.nodup (.numbersOf mod) t) hkeep t
  simp only [Nat.zero_add] at hnumbers
  simp only [Numbering.module, hs']
  refine ⟨h'.inverse, h'.kept, ?_, ?_, ?_⟩
  · intro mod' hmod'
    have hne : mod' ≠ mod := by
      rintro rfl
      exact hnot hmod'
    simp only [Starts.keep, Fields.get_put_of_ne hne]
    exact h'.texts mod' (List.mem_cons_of_mem _ hmod')
  · intro mod' hmod' t' ht'
    simp only [Fields.get_put]
    by_cases heq : mod' = mod
    · subst heq
      rw [ht] at ht'
      cases ht'
      refine ⟨_, _, hstart, if_pos rfl, fun pro => ?_⟩
      rw [hnumbers, hnews]
    · rw [if_neg heq]
      exact h'.done mod' (by simp [heq, hmod']) t' ht'
  · intro mod' hgone
    rw [Fields.get_put_of_ne _, h'.gone mod' hgone]
    rintro rfl
    rw [ht] at hgone
    cases hgone

theorem Numbering.Inv.foldl {l : List (Str × Fields Str Num)} (hnodup : (l.map Prod.fst).Nodup)
    (hmem : ∀ e ∈ l, protos.get e.1 = some e.2) (h : s.Inv order protos (l.map Prod.fst)) :
    (l.foldl (Numbering.module order) s).Inv order protos [] := by
  induction l generalizing s with
  | nil => exact h
  | cons e l ih =>
    rw [List.map_cons, List.nodup_cons] at hnodup
    have hfirst : protos.get e.1 = some e.2 := hmem e List.mem_cons_self
    exact ih hnodup.2 (fun e he => hmem e (List.mem_cons_of_mem _ he)) (h.module hfirst hnodup.1)

theorem inv_setProtoNum (order : Order) (hm : Mixed protos) :
    ∃ s : Numbering, setProtoNum order protos = s.protos ∧ s.Inv order protos [] := by
  have hfirst := inv_starts order hm
  have hmem : ∀ e ∈ order.items .numbers protos, protos.get e.1 = some e.2 :=
    fun e he => (order.mem_items .numbers protos).1 he
  refine ⟨_, rfl, Numbering.Inv.foldl (order.nodup .numbers protos) hmem ?_⟩
  refine ⟨hfirst.inverse, ?_, fun mod _ => hfirst.texts mod, ?_, fun _ h => h⟩
  · exact fun mod pro val hval htext => start_of_text order hm hval htext
  · intro mod hnot t ht
    exact absurd (List.mem_map.2 ⟨(mod, t), (order.mem_items .numbers protos).2 ht, rfl⟩) hnot

/-- After the second loop, every module has a block of its own, and its new messages have the first numbers of it. -/
theorem num_setProtoNum (order : Order) (hm : Mixed protos) : ∃ start : Str → Nat,
    (∀ mod mod', (protos.get mod).isSome → (protos.get mod').isSome → start mod = start mod' → mod = mod') ∧
    (∀ mod pro val, num protos mod pro = some val → val.isText → val.toInt / 1000 = start mod) ∧
    ∀ mod pro, num (setProtoNum order protos) mod pro = (num protos mod pro).map fun val =>
      if val = .int 0 then .int (start mod * 1000 + (newsOf order protos mod).idxOf pro) else val := by
  obtain ⟨s, hset, hend⟩ := inv_setProtoNum order hm
  have hdone := fun mod => hend.done mod List.not_mem_nil
  refine ⟨fun mod => (s.starts.mod2start.get mod).getD 0, ?_, ?_, ?_⟩
  · intro mod mod' hmod hmod' heq
    obtain ⟨t, ht⟩ := Option.isSome_iff_exists.1 hmod
    obtain ⟨t', ht'⟩ := Option.isSome_iff_exists.1 hmod'
    obtain ⟨pro_start, -, hstart, -⟩ := hdone mod t ht
    obtain ⟨pro_start', -, hstart', -⟩ := hdone mod' t' ht'
    simp only [hstart, hstart', Option.getD_some] at heq
    subst heq
    exact Option.some.inj (((hend.inverse _ _).1 hstart).symm.trans ((hend.inverse _ _).1 hstart'))
  · intro mod pro val hval htext
    simp only [hend.kept mod pro val hval htext, Option.getD_some]
  · intro mod pro
    rw [hset]
    cases ht : protos.get mod with
    | none => simp [num, ht, hend.gone mod ht]
    | some t =>
      obtain ⟨pro_start, u, hstart, hu, hget⟩ := hdone mod t ht
      have hnum : num protos mod pro = t.get pro := by rw [num, ht, Option.bind_some]
      have hres : num s.protos mod pro = u.get pro := by rw [num, hu, Option.bind_some]
      simp only [hres, hget, mem_newsOf, hnum, hstart, Option.getD_some]
      cases hpro : t.get pro with
      | none => simp
      | some val => by_cases hzero : val = .int 0 <;> simp [hzero]

end Second

/-! ## Stable and unique numbers -/

/-- No two messages have the same number. -/
def Distinct (defines : Defines) : Prop := ∀ mod pro val mod' pro' val', num defines mod pro = some val →
  num defines mod' pro' = some val' → val.toInt = val'.toInt → mod = mod' ∧ pro = pro'

/-- The numbers of each module lie in one block of 1000, which no other module uses. -/
def Blocks (defines : Defines) : Prop := ∀ mod pro val mod' pro' val', num defines mod pro = some val →
  num defines mod' pro' = some val' → (val.toInt / 1000 = val'.toInt / 1000 ↔ mod = mod')

/-- A section as `parse_defines` reads it, with distinct numbers and a block for each module. -/
structure Section where
  defines : Defines
  texts : Each (·.isText) defines
  distinct : Distinct defines
  blocks : Blocks defines

/-- The messages of proto files as `parse_proto` reads them. -/
structure Protos where
  protos : Defines
  zero : Each (· = .int 0) protos

/-- A message still present, in its module, keeps its number, the numbers are distinct and every module has a block. -/
structure Stable (defines protos result : Defines) : Prop where
  kept : ∀ mod pro val, num defines mod pro = some val → (num protos mod pro).isSome → num result mod pro = some val
  distinct : Distinct result
  blocks : Blocks result

/-- How many messages of the module have no number in the section. -/
def newCount (defines protos : Defines) (mod : Str) : Nat :=
  ((protos.get mod).map fun t => (t.keys.filter fun pro => (num defines mod pro).isNone).length).getD 0

/-- The new messages of every module fit into a block, below the numbers that the module keeps. -/
def Room (defines protos : Defines) : Prop := ∀ mod, newCount defines protos mod ≤ 1000 ∧
  ∀ pro val, num defines mod pro = some val → (num protos mod pro).isSome →
    newCount defines protos mod ≤ val.toInt % 1000

section Stable

variable (order : Order) (sec : Section) (p : Protos)

theorem num_merge_cases {mod pro : Str} {val : Num}
    (hval : num (merge order sec.defines p.protos) mod pro = some val) : (num p.protos mod pro).isSome ∧
      (num sec.defines mod pro = some val ∧ val.isText ∨ num sec.defines mod pro = none ∧ val = .int 0) := by
  rw [num_merge] at hval
  obtain ⟨zero, hzero, rfl⟩ := Option.map_eq_some_iff.1 hval
  refine ⟨by rw [hzero]; rfl, ?_⟩
  cases hold : num sec.defines mod pro with
  | none => exact Or.inr ⟨rfl, p.zero mod pro zero hzero⟩
  | some val => exact Or.inl ⟨rfl, sec.texts mod pro val hold⟩

theorem mixed_merge : Mixed (merge order sec.defines p.protos) where
  vals := by
    intro mod pro val hval
    rcases (num_merge_cases order sec p hval).2 with ⟨-, htext⟩ | ⟨-, hzero⟩
    · exact Or.inr htext
    · exact Or.inl hzero
  blocks := by
    have hold : ∀ {mod pro val}, num (merge order sec.defines p.protos) mod pro = some val → val.isText →
        num sec.defines mod pro = some val := by
      intro mod pro val hval htext
      rcases (num_merge_cases order sec p hval).2 with ⟨hold, -⟩ | ⟨-, rfl⟩
      · exact hold
      · cases htext
    exact fun mod pro val mod' pro' val' h h' htext htext' =>
      sec.blocks mod pro val mod' pro' val' (hold h htext) (hold h' htext')

theorem length_newsOf (mod : Str) :
    (newsOf order (merge order sec.defines p.protos) mod).length = newCount sec.defines p.protos mod := by
  have hmem : ∀ pro, pro ∈ newsOf order (merge order sec.defines p.protos) mod ↔
      (num p.protos mod pro).isSome ∧ num sec.defines mod pro = none := by
    intro pro
    rw [mem_newsOf]
    constructor
    · intro h
      obtain ⟨hthere, hcases⟩ := num_merge_cases order sec p h
      rcases hcases with ⟨-, htext⟩ | ⟨hnone, -⟩
      · cases htext
      · exact ⟨hthere, hnone⟩
    · rintro ⟨hthere, hnone⟩
      obtain ⟨zero, hzero⟩ := Option.isSome_iff_exists.1 hthere
      rw [num_merge, hzero, hnone, p.zero mod pro zero hzero]
      rfl
  unfold newCount
  cases ht : p.protos.get mod with
  | none =>
    refine List.length_eq_zero_iff.2 (List.eq_nil_iff_forall_not_mem.2 fun pro hpro => ?_)
    have hthere := ((hmem pro).1 hpro).1
    rw [num, ht] at hthere
    cases hthere
  | some t =>
    have hnodup : (t.keys.filter fun pro => (num sec.defines mod pro).isNone).Nodup := t.nodup.filter _
    refine (List.perm_ext_iff_of_nodup nodup_newsOf hnodup).2 (fun pro => ?_) |>.length_eq
    rw [hmem, num, ht, Option.bind_some, List.mem_filter, Fields.mem_keys, Option.isNone_iff_eq_none]

/-- The numbers after a run, with the block of each module: those that are kept, and the first ones of the block for
the new messages. -/
structure Given (start : Str → Nat) : Prop where
  inj : ∀ mod pro mod' pro', (num p.protos mod pro).isSome → (num p.protos mod' pro').isSome →
    start mod = start mod' → mod = mod'
  kept : ∀ mod pro val, num sec.defines mod pro = some val → (num p.protos mod pro).isSome →
    num (setProtoNum order (merge order sec.defines p.protos)) mod pro = some val ∧ val.toInt / 1000 = start mod
  new : ∀ mod pro, pro ∈ newsOf order (merge order sec.defines p.protos) mod →
    num (setProtoNum order (merge order sec.defines p.protos)) mod pro =
      some (.int (start mod * 1000 + (newsOf order (merge order sec.defines p.protos) mod).idxOf pro))
  all : ∀ mod pro val, num (setProtoNum order (merge order sec.defines p.protos)) mod pro = some val →
    (num p.protos mod pro).isSome ∧ (num sec.defines mod pro = some val ∨
      pro ∈ newsOf order (merge order sec.defines p.protos) mod)

theorem exists_given : ∃ start, Given order sec p start := by
  obtain ⟨start, hinj, hblock, hnum⟩ := num_setProtoNum order (mixed_merge order sec p)
  refine ⟨start, ?_, ?_, ?_, ?_⟩
  · have hthere : ∀ mod pro, (num p.protos mod pro).isSome → ((merge order sec.defines p.protos).get mod).isSome := by
      intro mod pro h
      rw [get_merge, Option.isSome_map]
      cases hmod : p.protos.get mod with
      | none =>
        rw [num, hmod] at h
        cases h
      | some t => rfl
    exact fun mod pro mod' pro' h h' => hinj mod mod' (hthere mod pro h) (hthere mod' pro' h')
  · intro mod pro val hval hthere
    have htext := sec.texts mod pro val hval
    have hmerged : num (merge order sec.defines p.protos) mod pro = some val := by
      obtain ⟨zero, hzero⟩ := Option.isSome_iff_exists.1 hthere
      rw [num_merge, hzero, hval]
      rfl
    refine ⟨?_, hblock mod pro val hmerged htext⟩
    have hne : val ≠ .int 0 := by
      rintro rfl
      cases htext
    rw [hnum, hmerged, Option.map_some, if_neg hne]
  · intro mod pro hnew
    rw [hnum, mem_newsOf.1 hnew, Option.map_some, if_pos rfl]
  · intro mod pro val hval
    rw [hnum] at hval
    obtain ⟨old, hold, rfl⟩ := Option.map_eq_some_iff.1 hval
    obtain ⟨hthere, ⟨hkept, htext⟩ | ⟨-, rfl⟩⟩ := num_merge_cases order sec p hold
    · refine ⟨hthere, Or.inl ?_⟩
      rw [if_neg (by rintro rfl; cases htext), hkept]
    · exact ⟨hthere, Or.inr (mem_newsOf.2 hold)⟩

variable {order sec p} {start : Str → Nat} {mod : Str}

/-- The numbers of the new messages of a module. -/
theorem Given.exists_new (h : Given order sec p start) (mod : Str) (i : Nat)
    (hi : i < newCount sec.defines p.protos mod) :
    ∃ pro ∈ newsOf order (merge order sec.defines p.protos) mod,
      num (setProtoNum order (merge order sec.defines p.protos)) mod pro = some (.int (start mod * 1000 + i)) := by
  rw [← length_newsOf order] at hi
  have hmem := List.getElem_mem hi
  refine ⟨_, hmem, ?_⟩
  rw [h.new mod _ hmem, nodup_newsOf.idxOf_getElem]

theorem Given.room (h : Given order sec p start)
    (hs : Stable sec.defines p.protos (setProtoNum order (merge order sec.defines p.protos))) :
    Room sec.defines p.protos := by
  intro mod
  constructor
  · -- the number after the last of the block is of the next one
    by_contra hgt
    obtain ⟨pro, -, hpro⟩ := h.exists_new mod 0 (by omega)
    obtain ⟨pro', -, hpro'⟩ := h.exists_new mod 1000 (by omega)
    have hblock := (hs.blocks _ _ _ _ _ _ hpro hpro').2 rfl
    simp only [Num.toInt] at hblock
    omega
  · intro pro val hval hthere
    by_contra hlt
    obtain ⟨hkept, hblock⟩ := h.kept mod pro val hval hthere
    -- a new message gets the number that is kept
    obtain ⟨pro', -, hpro'⟩ := h.exists_new mod (val.toInt % 1000) (by omega)
    have hsame : val.toInt = (Num.int (start mod * 1000 + val.toInt % 1000)).toInt := by
      simp only [Num.toInt, ← hblock]
      omega
    obtain ⟨-, rfl⟩ := hs.distinct _ _ _ _ _ _ hkept hpro' hsame
    have htext := sec.texts mod pro val hval
    rw [Option.some.inj (hkept.symm.trans hpro')] at htext
    cases htext

/-- Where a message has its number, when there is room. -/
theorem Given.cases (h : Given order sec p start) (hroom : Room sec.defines p.protos) {pro : Str} {val : Num}
    (hval : num (setProtoNum order (merge order sec.defines p.protos)) mod pro = some val) :
    val.toInt / 1000 = start mod ∧ (num p.protos mod pro).isSome ∧
      (num sec.defines mod pro = some val ∧ newCount sec.defines p.protos mod ≤ val.toInt % 1000 ∨
        pro ∈ newsOf order (merge order sec.defines p.protos) mod ∧
          val.toInt % 1000 = (newsOf order (merge order sec.defines p.protos) mod).idxOf pro ∧
          val.toInt % 1000 < newCount sec.defines p.protos mod) := by
  obtain ⟨hthere, hkept | hnew⟩ := h.all mod pro val hval
  · exact ⟨(h.kept mod pro val hkept hthere).2, hthere, Or.inl ⟨hkept, (hroom mod).2 pro val hkept hthere⟩⟩
  · have hle := (hroom mod).1
    have hlt := List.idxOf_lt_length_of_mem hnew
    rw [length_newsOf] at hlt
    have heq := h.new mod pro hnew
    rw [hval] at heq
    cases heq
    simp only [Num.toInt]
    exact ⟨by omega, hthere, Or.inr ⟨hnew, by omega, by omega⟩⟩

theorem Given.stable (h : Given order sec p start) (hroom : Room sec.defines p.protos) :
    Stable sec.defines p.protos (setProtoNum order (merge order sec.defines p.protos)) := by
  have hblocks : Blocks (setProtoNum order (merge order sec.defines p.protos)) := by
    intro mod pro val mod' pro' val' hval hval'
    obtain ⟨hblock, hthere, -⟩ := h.cases hroom hval
    obtain ⟨hblock', hthere', -⟩ := h.cases hroom hval'
    rw [hblock, hblock']
    exact ⟨h.inj mod pro mod' pro' hthere hthere', congrArg start⟩
  refine ⟨fun mod pro val hval hthere => (h.kept mod pro val hval hthere).1, ?_, hblocks⟩
  intro mod pro val mod' pro' val' hval hval' hsame
  obtain rfl : mod = mod' := (hblocks _ _ _ _ _ _ hval hval').1 (by rw [hsame])
  refine ⟨rfl, ?_⟩
  obtain ⟨-, -, ⟨hkept, hle⟩ | ⟨hnew, hidx, hlt⟩⟩ := h.cases hroom hval
  · obtain ⟨-, -, ⟨hkept', -⟩ | ⟨-, -, hlt'⟩⟩ := h.cases hroom hval'
    · exact (sec.distinct _ _ _ _ _ _ hkept hkept' hsame).2
    · omega
  · obtain ⟨-, -, ⟨-, hle'⟩ | ⟨hnew', hidx', -⟩⟩ := h.cases hroom hval'
    · omega
    · refine (List.idxOf_inj hnew).1 ?_
      rw [← hidx, ← hidx', hsame]

/-- Every message still present keeps its number, no two messages have the same one and the numbers of each module lie
in a block of its own, iff the new messages of every module fit into its block below the numbers it keeps. -/
theorem stable_iff (order : Order) (sec : Section) (p : Protos) :
    Stable sec.defines p.protos (setProtoNum order (merge order sec.defines p.protos)) ↔
      Room sec.defines p.protos := by
  obtain ⟨start, h⟩ := exists_given order sec p
  exact ⟨h.room, h.stable⟩

def loginDefines : Defines :=
  oneMessage "login".toList "C2GSLoginAccount".toList (.text ⟨"1000".toList, by decide, by decide⟩)

/-- A section with one message. -/
def loginSection : Section where
  defines := loginDefines
  texts := by
    intro mod pro val h
    rw [(num_oneMessage h).2.2]
    rfl
  distinct := by
    intro mod pro val mod' pro' val' h h' _
    obtain ⟨rfl, rfl, -⟩ := num_oneMessage h
    obtain ⟨rfl, rfl, -⟩ := num_oneMessage h'
    exact ⟨rfl, rfl⟩
  blocks := by
    intro mod pro val mod' pro' val' h h'
    obtain ⟨rfl, -, rfl⟩ := num_oneMessage h
    obtain ⟨rfl, -, rfl⟩ := num_oneMessage h'
    exact iff_of_true rfl rfl

def loginFiles : List (Str × Str) :=
  [("login.proto".toList, "message C2GSLoginAccount \x7b\n\x7d\nmessage C2GSSelectRole \x7b\n\x7d\n".toList)]

/-- Its proto file, with another message. -/
def loginProtos : Protos where
  protos := (parseProto .client loginFiles).getD Fields.empty
  zero := @zero_parseProto .client loginFiles _ rfl

/-- The new message gets the number of the old one. -/
theorem not_stable : ¬ Stable loginSection.defines loginProtos.protos
    (setProtoNum Order.made (merge Order.made loginSection.defines loginProtos.protos)) := by
  intro h
  have hsame := h.distinct "login".toList "C2GSLoginAccount".toList (.text ⟨"1000".toList, by decide, by decide⟩)
    "login".toList "C2GSSelectRole".toList (.int 1000) (by decide) (by decide) (by decide)
  exact absurd hsame.2 (by decide)

end Stable

end RoundGame.Shell
