import RoundGame.Skynet.SeriUnpack

/-!
# Unpacking what was packed

- A message that was packed is unpacked as copies of its values, whatever the heap is in which it is unpacked, and the
  tables that were there before are left as they are (`unpack_pack`).
- A message is packed exactly when no value below more than `MAX_DEPTH` tables and no value of another type is reached
  from it (`pack_ok_iff`); so a table that reaches itself is not packed.

`Reads content x v`: the bytes `x` are read as a copy of `v`, wherever they stand. What `packOne` appends to a block is
read as a copy of the value (`packOne_packs`), by induction on the levels that are left.
-/

namespace RoundGame.Skynet.Seri

open Framing LuaHeap Reader

/-! ## One entry -/

theorem combine_spec : ∀ t < 8, ∀ v < 32, (COMBINE_TYPE t v).toNat &&& 7 = t ∧ (COMBINE_TYPE t v).toNat >>> 3 = v := by
  decide +kernel

theorem ofLe_singleton (b : UInt8) : ofLe [b] = b.toNat := by
  simp [ofLe, joinLe]

theorem run_read {sz : Nat} {p : Bytes} (line : Nat) (rest : Bytes) (h : p.length = sz) :
    (read sz line).run (p ++ rest) = .ok (p, rest) := run_read_ok.2 ⟨rfl, h⟩

theorem run_read_map {α : Type} {sz : Nat} {p : Bytes} (line : Nat) (f : Bytes → α) (rest : Bytes) (h : p.length = sz) :
    (do
      let p ← read sz line
      return f p : ReadBlock α).run (p ++ rest) = .ok (f p, rest) :=
  run_bind_ok.2 ⟨p, rest, run_read line rest h, rfl⟩

theorem run_unpackOne {t v : Nat} (ht : t < 8) (hv : v < 32) (n : Nat) (h : Heap) (l : Bytes) :
    (unpackOne (n + 1) h).run (COMBINE_TYPE t v :: l) = (pushValue (unpackOne n) n h t v).run l := by
  have hone : [COMBINE_TYPE t v].length = 1 := rfl
  have hread : (read 1 526).run (COMBINE_TYPE t v :: l) = .ok ([COMBINE_TYPE t v], l) := run_read 526 l hone
  rw [unpackOne, StateT.run_bind, hread]
  obtain ⟨h1, h2⟩ := combine_spec t ht v hv
  simp only [bind, Except.bind, ofLe_singleton, h1, h2]

/-! ## Writing -/

/-- `g` appends `x` to what was written. -/
def Writes (g : WriteBlock → WriteBlock) (x : Bytes) : Prop :=
  ∀ b, b.Wf → (g b).Wf ∧ (g b).contents = b.contents ++ x

theorem writes_push (x : Bytes) : Writes (·.push x) x := fun _ hb => WriteBlock.push_spec hb x

theorem Writes.push {g : WriteBlock → WriteBlock} {x : Bytes} (hg : Writes g x) (y : Bytes) :
    Writes (fun b => (g b).push y) (x ++ y) := by
  intro b hb
  obtain ⟨hwf, hcontents⟩ := hg b hb
  obtain ⟨hwf', hcontents'⟩ := WriteBlock.push_spec hwf y
  exact ⟨hwf', by rw [hcontents', hcontents, List.append_assoc]⟩

theorem toNat_lt_of_bounds {v : Int64} {k : Nat} (h0 : ¬ v < 0) (h1 : v.toInt < k) : v.toUInt64.toNat < k := by
  have hle : 0 ≤ v := Int64.not_lt.1 h0
  rw [Int64.toNat_toUInt64_of_le hle, Int64.toNatClampNeg]
  rw [Int64.le_iff_toInt_le] at hle
  have hz : (0 : Int64).toInt = 0 := rfl
  omega

theorem toInt32_toUInt64 (v : Int64) : v.toUInt64.toUInt32.toInt32 = v.toInt32 := by
  apply Int32.toBitVec.inj
  simp [BitVec.signExtend_eq_setWidth_of_le]

theorem ofNat_toUInt64 (v : Int64) : Int64.ofNat v.toUInt64.toNat = v := by
  rw [← UInt64.toInt64_ofNat']
  simp

/-- An integer is written behind a cookie with which it is read. -/
theorem writes_integer (v : Int64) : ∃ c x, c < 32 ∧ c ≠ TYPE_NUMBER_REAL ∧
    Writes (wbInteger · v) (COMBINE_TYPE TYPE_NUMBER c :: x) ∧
    ∀ rest, (getInteger c).run (x ++ rest) = .ok (v, rest) := by
  have hpush : ∀ (c : Nat) (y : Bytes), Writes (fun b => (b.push [COMBINE_TYPE TYPE_NUMBER c]).push y)
      (COMBINE_TYPE TYPE_NUMBER c :: y) := fun c y => (writes_push _).push y
  by_cases hzero : v = 0
  · refine ⟨TYPE_NUMBER_ZERO, [], by decide, by decide, ?_, fun rest => by subst hzero; rfl⟩
    simp only [wbInteger, if_pos hzero]
    exact writes_push _
  by_cases hlong : v ≠ v.toInt32.toInt64
  · refine ⟨TYPE_NUMBER_QWORD, le 8 v.toUInt64.toNat, by decide, by decide, ?_, fun rest => ?_⟩
    · simp only [wbInteger, if_neg hzero, if_pos hlong]
      exact hpush _ _
    · refine (run_read_map 390 (fun p => (UInt64.ofNat (ofLe p)).toInt64) rest (length_le _ _)).trans ?_
      rw [ofLe_le (UInt64.toNat_lt _)]
      simp
  rw [not_not] at hlong
  by_cases hneg : v < 0
  · refine ⟨TYPE_NUMBER_DWORD, le 4 v.toInt32.toUInt32.toNat, by decide, by decide, ?_, fun rest => ?_⟩
    · simp only [wbInteger, if_neg hzero, if_neg (not_not.2 hlong), if_pos hneg]
      exact hpush _ _
    · refine (run_read_map 382 (fun p => (UInt32.ofNat (ofLe p)).toInt32.toInt64) rest (length_le _ _)).trans ?_
      rw [ofLe_le (UInt32.toNat_lt _)]
      simp [← hlong]
  by_cases hbyte : v < 0x100
  · have hlt : v.toUInt64.toNat < 256 := toNat_lt_of_bounds hneg (Int64.lt_iff_toInt_lt.1 hbyte)
    refine ⟨TYPE_NUMBER_BYTE, le 1 v.toUInt64.toNat, by decide, by decide, ?_, fun rest => ?_⟩
    · simp only [wbInteger, if_neg hzero, if_neg (not_not.2 hlong), if_neg hneg, if_pos hbyte]
      exact hpush _ _
    · refine (run_read_map 366 (fun p => Int64.ofNat (ofLe p)) rest (length_le _ _)).trans ?_
      rw [ofLe_le (by omega), ofNat_toUInt64]
  by_cases hword : v < 0x10000
  · have hlt : v.toUInt64.toNat < 65536 := toNat_lt_of_bounds hneg (Int64.lt_iff_toInt_lt.1 hword)
    refine ⟨TYPE_NUMBER_WORD, le 2 v.toUInt64.toNat, by decide, by decide, ?_, fun rest => ?_⟩
    · simp only [wbInteger, if_neg hzero, if_neg (not_not.2 hlong), if_neg hneg, if_neg hbyte, if_pos hword]
      exact hpush _ _
    · refine (run_read_map 374 (fun p => Int64.ofNat (ofLe p)) rest (length_le _ _)).trans ?_
      rw [ofLe_le (by omega), ofNat_toUInt64]
  · refine ⟨TYPE_NUMBER_DWORD, le 4 v.toUInt64.toUInt32.toNat, by decide, by decide, ?_, fun rest => ?_⟩
    · simp only [wbInteger, if_neg hzero, if_neg (not_not.2 hlong), if_neg hneg, if_neg hbyte, if_neg hword]
      exact hpush _ _
    · refine (run_read_map 382 (fun p => (UInt32.ofNat (ofLe p)).toInt32.toInt64) rest (length_le _ _)).trans ?_
      rw [ofLe_le (UInt32.toNat_lt _), UInt32.ofNat_toNat, toInt32_toUInt64, ← hlong]

/-- A string whose length is no `int` is not read as it was. -/
theorem writes_string (s : Bytes) : ∃ x, Writes (wbString · s) x ∧ s.length < x.length ∧
    (s.length < 2 ^ 31 → ∀ n h rest, (unpackOne (n + 1) h).run (x ++ rest) = .ok ((.string s, h), rest)) := by
  have hbuffer : ∀ {h : Heap} {rest : Bytes}, (do
      let s ← getBuffer s.length
      return (.string s, h) : ReadBlock (Value × Heap)).run (s ++ rest) = .ok ((.string s, h), rest) :=
    fun {h rest} => run_read_map 425 (fun s => (Value.string s, h)) rest rfl
  have hlonger : ∀ (k : Nat) (c : UInt8), s.length < (c :: (le k s.length ++ s)).length := by
    intro k c
    rw [List.length_cons, List.length_append]
    omega
  by_cases hshort : s.length < MAX_COOKIE
  · refine ⟨COMBINE_TYPE TYPE_SHORT_STRING s.length :: s, ?_, by simp, ?_⟩
    · simp only [wbString, if_pos hshort]
      by_cases hpos : s.length > 0
      · simp only [if_pos hpos]
        exact (writes_push _).push s
      · simp only [if_neg hpos]
        obtain rfl := List.length_eq_zero_iff.1 (Nat.eq_zero_of_not_pos hpos)
        exact writes_push _
    · intro _ n h rest
      rw [List.cons_append, run_unpackOne (by decide) hshort]
      exact hbuffer
  · by_cases hword : s.length < 0x10000
    · refine ⟨COMBINE_TYPE TYPE_LONG_STRING 2 :: (le 2 s.length ++ s), ?_, hlonger 2 _, ?_⟩
      · simp only [wbString, if_neg hshort, if_pos hword]
        exact ((writes_push _).push _).push s
      · intro _ n h rest
        rw [List.cons_append, run_unpackOne (by decide) (by decide), List.append_assoc]
        refine run_bind_ok.2 ⟨le 2 s.length, s ++ rest, run_read 491 _ (length_le _ _), ?_⟩
        rw [ofLe_le (by omega)]
        exact hbuffer
    · refine ⟨COMBINE_TYPE TYPE_LONG_STRING 4 :: (le 4 s.length ++ s), ?_, hlonger 4 _, ?_⟩
      · simp only [wbString, if_neg hshort, if_neg hword]
        exact ((writes_push _).push _).push s
      · intro hlen n h rest
        rw [List.cons_append, run_unpackOne (by decide) (by decide), List.append_assoc]
        refine run_bind_ok.2 ⟨le 4 s.length, s ++ rest, run_read 502 _ (length_le _ _), ?_⟩
        rw [ofLe_le (by omega)]
        exact hbuffer

/-! ## Fields of a table that is read -/

/-- The fields that a table shows when it is packed. -/
def View.content {h : Heap} (E : View h) (t : Nat) : List (Value × Value) :=
  match E.pairs t with
  | some ps => ps.takeWhile fun e => e.1 ≠ .nil
  | none => (h.table t).entries

/-- The table `t` has copies of the fields `es` so far. -/
structure Filled (content : Nat → List (Value × Value)) (h : Heap) (t : Nat) (es : List (Value × Value)) : Prop where
  made : t < h.brk
  copies : List.Forall₂ (fun e e' => Copy content h (t + 1) h.brk e.1 e'.1 ∧ Copy content h (t + 1) h.brk e.2 e'.2) es
    (h.table t).entries

section Filled

variable {content : Nat → List (Value × Value)} {h h' : Heap} {t : Nat} {es : List (Value × Value)} {k v k' v' : Value}

theorem filled_create (content : Nat → List (Value × Value)) (h : Heap) : Filled content h.create.2 h.brk [] := by
  refine ⟨Nat.lt_succ_self _, ?_⟩
  simp [Heap.create, Table.empty, Fields.empty]

theorem Filled.extends (hf : Filled content h t es) (hext : Extends h h') : Filled content h' t es := by
  refine ⟨Nat.lt_of_lt_of_le hf.made hext.brk, ?_⟩
  rw [hext.table t hf.made]
  refine hf.copies.imp fun e e' hc => ?_
  have hsame : ∀ u, t + 1 ≤ u → u < h.brk → h'.table u = h.table u := fun u _ hu => hext.table u hu
  exact ⟨hc.1.mono (Nat.le_refl _) hext.brk hsame, hc.2.mono (Nat.le_refl _) hext.brk hsame⟩

/-- A key that was read later is not there yet. -/
theorem Filled.fresh (hf : Filled content h t es) (hk : k ∉ es.map Prod.fst) {hi : Nat}
    (hc : Copy content h' h.brk hi k k') : k' ∉ (h.table t).entries.map Prod.fst := by
  intro hmem
  obtain ⟨e', he', rfl⟩ := List.mem_map.1 hmem
  obtain ⟨i, hi', heq'⟩ := List.getElem_of_mem he'
  have hlen := hf.copies.length_eq
  have hold := (hf.copies.get (by omega) hi').1
  simp only [List.get_eq_getElem, heq'] at hold
  have hne : es[i].1 ≠ k := fun heq => hk (heq ▸ List.mem_map_of_mem (List.getElem_mem _))
  rcases hc.eq_or_table with ⟨hplain, heq⟩ | ⟨u, u', -, hu', hlo, -⟩
  · rcases hold.eq_or_table with ⟨-, heq'⟩ | ⟨w, w', -, hw', -, -⟩
    · exact hne (heq'.symm.trans heq)
    · exact hplain w' (heq.symm.trans hw')
  · rcases hold.eq_or_table with ⟨hplain, heq'⟩ | ⟨w, w', -, hw', -, hhi⟩
    · exact hplain u' (heq'.symm.trans hu')
    · rw [hu'] at hw'
      cases hw'
      omega

/-- A field is set whose copies were just read. -/
theorem Filled.set (hf : Filled content h t es) (hext : Extends h h') (hnew : k' ∉ (h'.table t).entries.map Prod.fst)
    (hk : Copy content h' (t + 1) h'.brk k k') (hv : Copy content h' (t + 1) h'.brk v v') (hkey : IsKey k' = true)
    (hne : v' ≠ .nil) : Filled content (h'.set t k' hkey v') t (es ++ [(k, v)]) := by
  have hf' := hf.extends hext
  have hsame : ∀ u, t + 1 ≤ u → u < h'.brk → (h'.set t k' hkey v').table u = h'.table u :=
    fun u hu _ => Heap.table_set_of_ne hkey (by omega)
  have hle := Nat.le_refl (t + 1)
  have hle' := Nat.le_refl h'.brk
  refine ⟨hf'.made, ?_⟩
  rw [Heap.table_set_self, Table.entries_set_of_not_mem hkey hne hnew]
  refine List.rel_append ?_ (.cons ?_ .nil)
  · exact hf'.copies.imp fun e e' hc => ⟨hc.1.mono hle hle' hsame, hc.2.mono hle hle' hsame⟩
  · exact ⟨hk.mono hle hle' hsame, hv.mono hle hle' hsame⟩

/-- A field of an array that is `nil` is not set. -/
theorem Filled.set_nil (hf : Filled content h t es) (hext : Extends h h')
    (hnew : k' ∉ (h'.table t).entries.map Prod.fst) (hkey : IsKey k' = true) :
    Filled content (h'.set t k' hkey .nil) t es := by
  have hf' := hf.extends hext
  have hsame : ∀ u, t + 1 ≤ u → u < h'.brk → (h'.set t k' hkey .nil).table u = h'.table u :=
    fun u hu _ => Heap.table_set_of_ne hkey (by omega)
  have hle := Nat.le_refl (t + 1)
  have hle' := Nat.le_refl h'.brk
  refine ⟨hf'.made, ?_⟩
  rw [Heap.table_set_self, Table.entries_set_nil hkey hnew]
  exact hf'.copies.imp fun e e' hc => ⟨hc.1.mono hle hle' hsame, hc.2.mono hle hle' hsame⟩

/-- A table that has copies of the fields in some order is a copy. -/
theorem Filled.copy (hf : Filled content h t es) {u lo : Nat} (hperm : es.Perm (content u)) (hlo : lo ≤ t) :
    Copy content h lo h.brk (.table u) (.table t) := by
  have hget : ∀ (i : Nat) (k v k' v' : Value), es[i]? = some (k, v) → (h.table t).entries[i]? = some (k', v') →
      Copy content h (t + 1) h.brk k k' ∧ Copy content h (t + 1) h.brk v v' := by
    intro i k v k' v' he he'
    obtain ⟨hi, heq⟩ := List.getElem?_eq_some_iff.1 he
    obtain ⟨hi', heq'⟩ := List.getElem?_eq_some_iff.1 he'
    have hc := hf.copies.get hi hi'
    simpa only [List.get_eq_getElem, heq, heq'] using hc
  have hle : lo ≤ t + 1 := by omega
  refine .table es hperm hf.copies.length_eq ?_ ?_ hlo hf.made
  · intro i k v k' v' he he'
    exact (hget i k v k' v' he he').1.mono hle (Nat.le_refl _) fun _ _ _ => rfl
  · intro i k v k' v' he he'
    exact (hget i k v k' v' he he').2.mono hle (Nat.le_refl _) fun _ _ _ => rfl

end Filled

/-! ## Reading what was written -/

/-- The bytes are read as a copy of the value, wherever they stand. -/
def Reads (content : Nat → List (Value × Value)) (x : Bytes) (v : Value) : Prop :=
  x ≠ [] ∧ ∀ n h rest, x.length ≤ n → ∃ v' h', (unpackOne n h).run (x ++ rest) = .ok ((v', h'), rest) ∧
    Copy content h' h.brk h'.brk v v'

section Reads

variable {content : Nat → List (Value × Value)} {x : Bytes} {v : Value}

/-- A value without tables. -/
theorem reads_plain (hne : x ≠ []) (hcopy : ∀ h : Heap, Copy content h h.brk h.brk v v)
    (hrun : ∀ n h rest, (unpackOne (n + 1) h).run (x ++ rest) = .ok ((v, h), rest)) : Reads content x v := by
  refine ⟨hne, fun n h rest hn => ?_⟩
  cases n with
  | zero => exact absurd (List.length_eq_zero_iff.1 (Nat.le_zero.1 hn)) hne
  | succ n => exact ⟨v, h, hrun n h rest, hcopy h⟩

theorem reads_nil (content : Nat → List (Value × Value)) : Reads content [UInt8.ofNat TYPE_NIL] .nil :=
  reads_plain (by simp) (fun _ => .nil) fun n h rest =>
    run_unpackOne (t := TYPE_NIL) (v := 0) (by decide) (by decide) n h rest

/-- The fields of an array from the place `i` on. -/
def arrayFields : Nat → List Value → List (Value × Value)
  | _, [] => []
  | i, v :: vs => if v = .nil then arrayFields (i + 1) vs else (.integer (Int64.ofNat i), v) :: arrayFields (i + 1) vs

theorem ofNat_inj {i j : Nat} (hi : i < 2 ^ 31) (hj : j < 2 ^ 31) (h : Int64.ofNat i = Int64.ofNat j) : i = j := by
  have heq := congrArg Int64.toInt h
  rw [Int64.toInt_ofNat_of_lt (by omega), Int64.toInt_ofNat_of_lt (by omega)] at heq
  omega

theorem arrayLoop_fills {xs : List Bytes} {vs : List Value} (hxs : List.Forall₂ (Reads content) xs vs) {t i n : Nat}
    {h : Heap} {es : List (Value × Value)} (hf : Filled content h t es) (hbound : i + vs.length ≤ 2 ^ 31)
    (hkeys : ∀ j, i ≤ j → j < 2 ^ 31 → .integer (Int64.ofNat j) ∉ es.map Prod.fst) (hn : xs.flatten.length ≤ n)
    (rest : Bytes) : ∃ h', (arrayLoop (unpackOne n) t vs.length i h).run (xs.flatten ++ rest) = .ok (h', rest) ∧
      Filled content h' t (es ++ arrayFields i vs) := by
  induction hxs generalizing i h es with
  | nil => exact ⟨h, rfl, by rw [arrayFields, List.append_nil]; exact hf⟩
  | @cons x v xs vs hx _ ih =>
    rw [List.flatten_cons, List.length_append] at hn
    rw [List.length_cons] at hbound
    have hbound' : i + 1 + vs.length ≤ 2 ^ 31 := by omega
    have hn' : xs.flatten.length ≤ n := by omega
    obtain ⟨v', h1, hread, hcopy⟩ := hx.2 n h (xs.flatten ++ rest) (by omega)
    have hext := (unpackOne_makes n _ _ _ _ _ hread).1
    have hcopy' : Copy content h1 (t + 1) h1.brk v v' := hcopy.mono hf.made (Nat.le_refl _) fun _ _ _ => rfl
    have hnew : .integer (Int64.ofNat i) ∉ (h1.table t).entries.map Prod.fst := by
      rw [hext.table t hf.made]
      exact hf.fresh (hkeys i (Nat.le_refl _) (by omega)) (.integer _ : Copy content h h.brk h.brk _ _)
    have hrun : ∀ {h' : Heap}, (arrayLoop (unpackOne n) t vs.length (i + 1) (h1.rawseti t (Int64.ofNat i) v')).run
        (xs.flatten ++ rest) = .ok (h', rest) →
        (arrayLoop (unpackOne n) t (vs.length + 1) i h).run (x ++ (xs.flatten ++ rest)) = .ok (h', rest) :=
      fun hrest => run_bind_ok.2 ⟨(v', h1), _, hread, hrest⟩
    rw [List.flatten_cons, List.append_assoc, arrayFields]
    by_cases hnil : v = .nil
    · have hnil' := hcopy.eq_nil_iff.2 hnil
      subst hnil'
      obtain ⟨h', hrest, hf'⟩ := ih (hf.set_nil hext hnew rfl) hbound' (fun j hj => hkeys j (by omega)) hn'
      exact ⟨h', hrun hrest, by rw [if_pos hnil]; exact hf'⟩
    · have hnil' := mt hcopy.eq_nil_iff.1 hnil
      have hkeys' : ∀ j, i + 1 ≤ j → j < 2 ^ 31 →
          .integer (Int64.ofNat j) ∉ (es ++ [(Value.integer (Int64.ofNat i), v)]).map Prod.fst := by
        intro j hj hlt hmem
        simp only [List.map_append, List.mem_append, List.map_cons, List.map_nil, List.mem_singleton,
          Value.integer.injEq] at hmem
        rcases hmem with hmem | heq
        · exact hkeys j (by omega) hlt hmem
        · have hij := ofNat_inj hlt (by omega) heq
          omega
      obtain ⟨h', hrest, hf'⟩ := ih (hf.set hext hnew (.integer _) hcopy' rfl hnil') hbound' hkeys' hn'
      refine ⟨h', hrun hrest, ?_⟩
      rw [if_neg hnil]
      rw [List.append_assoc] at hf'
      exact hf'

/-- The bytes of pairs. -/
def pairBytes (xs : List (Bytes × Bytes)) : Bytes := xs.flatMap fun x => x.1 ++ x.2

theorem hashLoop_fills {xs : List (Bytes × Bytes)} {ps : List (Value × Value)}
    (hxs : List.Forall₂ (fun x e => Reads content x.1 e.1 ∧ Reads content x.2 e.2) xs ps) {t n m : Nat}
    {h : Heap} {es : List (Value × Value)} (hf : Filled content h t es) (hnodup : ((es ++ ps).map Prod.fst).Nodup)
    (hvalid : ∀ e ∈ ps, IsKey e.1 = true ∧ e.2 ≠ .nil) (hn : (pairBytes xs).length < n) (hm : ps.length < m)
    (rest : Bytes) : ∃ h', (hashLoop (unpackOne n) t m h).run (pairBytes xs ++ UInt8.ofNat TYPE_NIL :: rest) =
      .ok (h', rest) ∧ Filled content h' t (es ++ ps) := by
  induction hxs generalizing m h es with
  | nil =>
    cases m with
    | zero => omega
    | succ m =>
      obtain ⟨v', h1, hread, hcopy⟩ := (reads_nil content).2 n h rest hn
      have hnil := hcopy.eq_nil_iff.2 rfl
      subst hnil
      refine ⟨h1, run_bind_ok.2 ⟨(.nil, h1), rest, hread, rfl⟩, ?_⟩
      rw [List.append_nil]
      exact hf.extends (unpackOne_makes n _ _ _ _ _ hread).1
  | @cons x e xs ps hx _ ih =>
    cases m with
    | zero => omega
    | succ m =>
      obtain ⟨k, v⟩ := e
      obtain ⟨hkey, hval⟩ := hvalid _ List.mem_cons_self
      have hlen : (pairBytes ((x.1, x.2) :: xs)).length = x.1.length + (x.2.length + (pairBytes xs).length) := by
        simp [pairBytes]
      have hbytes : pairBytes ((x.1, x.2) :: xs) = x.1 ++ (x.2 ++ pairBytes xs) := by simp [pairBytes]
      rw [hlen] at hn
      rw [List.length_cons] at hm
      obtain ⟨k', h1, hreadk, hcopyk⟩ := hx.1.2 n h (x.2 ++ (pairBytes xs ++ UInt8.ofNat TYPE_NIL :: rest)) (by omega)
      obtain ⟨v', h2, hreadv, hcopyv⟩ := hx.2.2 n h1 (pairBytes xs ++ UInt8.ofNat TYPE_NIL :: rest) (by omega)
      have hext1 := (unpackOne_makes n _ _ _ _ _ hreadk).1
      have hext2 := (unpackOne_makes n _ _ _ _ _ hreadv).1
      have hext := hext1.trans hext2
      have hknil : k' ≠ .nil := by
        intro hnil
        rw [hcopyk.eq_nil_iff.1 hnil] at hkey
        cases hkey
      have hfresh : k ∉ es.map Prod.fst := by
        intro hmem
        rw [List.map_append, List.nodup_append] at hnodup
        exact hnodup.2.2 k hmem k List.mem_cons_self rfl
      have hnew : k' ∉ (h2.table t).entries.map Prod.fst := by
        rw [hext.table t hf.made]
        exact hf.fresh hfresh hcopyk
      have hsame : ∀ u, h.brk ≤ u → u < h1.brk → h2.table u = h1.table u := fun u _ hu => hext2.table u hu
      have hmade := hf.made
      have hk2 : Copy content h2 (t + 1) h2.brk k k' := hcopyk.mono hmade hext2.brk hsame
      have hv2 : Copy content h2 (t + 1) h2.brk v v' :=
        hcopyv.mono (Nat.le_trans hmade hext1.brk) (Nat.le_refl _) fun _ _ _ => rfl
      have hkey' := hk2.isKey hkey
      have hval' := mt hv2.eq_nil_iff.1 hval
      have hf2 := hf.set hext hnew hk2 hv2 hkey' hval'
      have hnodup' : (((es ++ [(k, v)]) ++ ps).map Prod.fst).Nodup := by
        rw [List.append_assoc]
        exact hnodup
      have hn' : (pairBytes xs).length < n := by omega
      have hm' : ps.length < m := by omega
      obtain ⟨h', hrest, hf'⟩ := ih hf2 hnodup' (fun e he => hvalid e (List.mem_cons_of_mem _ he)) hn' hm'
      refine ⟨h', ?_, ?_⟩
      · rw [show pairBytes (x :: xs) = x.1 ++ (x.2 ++ pairBytes xs) from hbytes, List.append_assoc, List.append_assoc]
        refine run_bind_ok.2 ⟨(k', h1), _, hreadk, ?_⟩
        dsimp only
        rw [if_neg hknil]
        refine run_bind_ok.2 ⟨(v', h2), _, hreadv, ?_⟩
        dsimp only
        rw [Heap.rawset_of_isKey hkey']
        exact hrest
      · rw [List.append_assoc] at hf'
        exact hf'

theorem length_le_pairBytes {xs : List (Bytes × Bytes)} {ps : List (Value × Value)}
    (hxs : List.Forall₂ (fun x e => Reads content x.1 e.1 ∧ Reads content x.2 e.2) xs ps) :
    ps.length ≤ (pairBytes xs).length := by
  induction hxs with
  | nil => exact Nat.zero_le _
  | @cons x e xs ps hx _ ih =>
    have hpos := List.length_pos_iff.2 hx.1.1
    simp only [pairBytes, List.flatMap_cons, List.length_append, List.length_cons] at ih ⊢
    omega

theorem reads_table {c size t : Nat} {vs : List Value} {ps : List (Value × Value)} {xs : List Bytes}
    {ys : List (Bytes × Bytes)} (hc : c < 32) (hsize : size < 2 ^ 31)
    (hhead : ∀ rest, (arraySize c).run (x ++ rest) = .ok (Int32.ofNat size, rest)) (hvs : vs.length = size)
    (hxs : List.Forall₂ (Reads content) xs vs)
    (hys : List.Forall₂ (fun y e => Reads content y.1 e.1 ∧ Reads content y.2 e.2) ys ps)
    (hperm : (arrayFields 1 vs ++ ps).Perm (content t)) (hnodup : ((content t).map Prod.fst).Nodup)
    (hvalid : ∀ e ∈ content t, IsKey e.1 = true ∧ e.2 ≠ .nil) :
    Reads content (COMBINE_TYPE TYPE_TABLE c :: (x ++ (xs.flatten ++ (pairBytes ys ++ [UInt8.ofNat TYPE_NIL]))))
      (.table t) := by
  refine ⟨List.cons_ne_nil _ _, fun n h rest hn => ?_⟩
  have hpairs := length_le_pairBytes hys
  simp only [List.length_cons, List.length_append, List.length_nil] at hn
  cases n with
  | zero => omega
  | succ n =>
    have hcount : (Int32.ofNat size).toInt.toNat = vs.length := by
      rw [Int32.toInt_ofNat_of_lt hsize, Int.toNat_natCast, hvs]
    have hn1 : xs.flatten.length ≤ n := by omega
    have hn2 : (pairBytes ys).length < n := by omega
    have hn3 : ps.length < n := by omega
    obtain ⟨h1, harray, hf1⟩ := arrayLoop_fills (i := 1) hxs (filled_create content h) (by omega) (by simp) hn1
      (pairBytes ys ++ UInt8.ofNat TYPE_NIL :: rest)
    rw [List.nil_append] at hf1
    have hnodup' : ((arrayFields 1 vs ++ ps).map Prod.fst).Nodup := (hperm.map Prod.fst).nodup_iff.2 hnodup
    have hvalid' : ∀ e ∈ ps, IsKey e.1 = true ∧ e.2 ≠ .nil :=
      fun e he => hvalid e (hperm.subset (List.mem_append_right _ he))
    obtain ⟨h2, hhash, hf2⟩ := hashLoop_fills hys hf1 hnodup' hvalid' hn2 hn3 rest
    refine ⟨.table h.brk, h2, ?_, hf2.copy hperm (Nat.le_refl _)⟩
    rw [List.cons_append, run_unpackOne (by decide) hc]
    simp only [List.append_assoc, List.singleton_append]
    refine run_bind_ok.2 ⟨_, _, hhead _, ?_⟩
    dsimp only [Heap.create]
    rw [hcount]
    exact run_bind_ok.2 ⟨h1, _, harray, run_bind_ok.2 ⟨h2, rest, hhash, rfl⟩⟩

end Reads

/-! ## Packing -/

/-- What is appended has the property, if its length is an `int`. -/
def Packs (Q : Bytes → Prop) (b b' : WriteBlock) : Prop :=
  b'.Wf ∧ ∃ x, b'.contents = b.contents ++ x ∧ (x.length < 2 ^ 31 → Q x)

section Packs

variable {Q Q' : Bytes → Prop} {b b' b'' : WriteBlock}

theorem Packs.of_writes {g : WriteBlock → WriteBlock} {x : Bytes} (hg : Writes g x) (hb : b.Wf)
    (hq : x.length < 2 ^ 31 → Q x) : Packs Q b (g b) :=
  ⟨(hg b hb).1, x, (hg b hb).2, hq⟩

theorem Packs.mono (h : Packs Q b b') (hq : ∀ x, Q x → Q' x) : Packs Q' b b' := by
  obtain ⟨hwf, x, hx, hqx⟩ := h
  exact ⟨hwf, x, hx, fun hlt => hq x (hqx hlt)⟩

theorem Packs.trans (h : Packs Q b b') (h' : Packs Q' b' b'') :
    Packs (fun z => ∃ x y, z = x ++ y ∧ Q x ∧ Q' y) b b'' := by
  obtain ⟨-, x, hx, hqx⟩ := h
  obtain ⟨hwf, y, hy, hqy⟩ := h'
  refine ⟨hwf, x ++ y, by rw [hy, hx, List.append_assoc], fun hlt => ?_⟩
  rw [List.length_append] at hlt
  exact ⟨x, y, rfl, hqx (by omega), hqy (by omega)⟩

theorem bind_ok {ε α β : Type} {r : Except ε α} {f : α → Except ε β} {c : β} :
    (r >>= f) = .ok c ↔ ∃ a, r = .ok a ∧ f a = .ok c := by
  cases r with
  | error e => exact iff_of_false (fun hno => by cases hno) fun ⟨_, hno, _⟩ => by cases hno
  | ok a =>
    constructor
    · intro h
      exact ⟨a, rfl, h⟩
    · rintro ⟨_, heq, h⟩
      cases heq
      exact h

variable {content : Nat → List (Value × Value)} {one : WriteBlock → Value → Except String WriteBlock}

/-- What `one` writes of a value is read as a copy. -/
def PacksOne (content : Nat → List (Value × Value)) (one : WriteBlock → Value → Except String WriteBlock) : Prop :=
  ∀ b v b', b.Wf → one b v = .ok b' → Packs (Reads content · v) b b'

theorem foldlM_packs (hone : PacksOne content one) {vs : List Value} (hb : b.Wf) (h : vs.foldlM one b = .ok b') :
    Packs (fun x => ∃ xs : List Bytes, x = xs.flatten ∧ List.Forall₂ (Reads content) xs vs) b b' := by
  induction vs generalizing b with
  | nil =>
    cases h
    exact ⟨hb, [], by simp, fun _ => ⟨[], rfl, .nil⟩⟩
  | cons v vs ih =>
    rw [List.foldlM_cons] at h
    obtain ⟨b1, hv, hrest⟩ := bind_ok.1 h
    have hv' := hone b v b1 hb hv
    refine (hv'.trans (ih hv'.1 hrest)).mono ?_
    rintro _ ⟨x, _, rfl, hx, xs, rfl, hxs⟩
    exact ⟨x :: xs, rfl, .cons hx hxs⟩

/-- A field is written as its key and its value. -/
def packPair (one : WriteBlock → Value → Except String WriteBlock) (b : WriteBlock) (e : Value × Value) :
    Except String WriteBlock := do
  let b ← one b e.1
  one b e.2

theorem packPair_packs (hone : PacksOne content one) {ps : List (Value × Value)} (hb : b.Wf)
    (h : ps.foldlM (packPair one) b = .ok b') :
    Packs (fun x => ∃ ys : List (Bytes × Bytes), x = pairBytes ys ∧
      List.Forall₂ (fun y e => Reads content y.1 e.1 ∧ Reads content y.2 e.2) ys ps) b b' := by
  induction ps generalizing b with
  | nil =>
    cases h
    exact ⟨hb, [], by simp, fun _ => ⟨[], rfl, .nil⟩⟩
  | cons e ps ih =>
    rw [List.foldlM_cons] at h
    obtain ⟨b2, he, hrest⟩ := bind_ok.1 h
    obtain ⟨b1, hk, hv⟩ := bind_ok.1 he
    have hk' := hone b e.1 b1 hb hk
    have hv' := hone b1 e.2 b2 hk'.1 hv
    refine ((hk'.trans hv').trans (ih hv'.1 hrest)).mono ?_
    rintro _ ⟨_, _, rfl, ⟨x, y, rfl, hx, hy⟩, ys, rfl, hys⟩
    exact ⟨(x, y) :: ys, rfl, .cons ⟨hx, hy⟩ hys⟩

theorem metapairsLoop_eq (ps : List (Value × Value)) :
    metapairsLoop one b ps = (ps.takeWhile fun e => e.1 ≠ .nil).foldlM (packPair one) b := by
  induction ps generalizing b with
  | nil => rfl
  | cons e ps ih =>
    obtain ⟨k, v⟩ := e
    rw [metapairsLoop]
    by_cases hk : k = .nil
    · rw [if_pos hk, List.takeWhile_cons_of_neg (by simp [hk])]
      rfl
    · rw [if_neg hk, List.takeWhile_cons_of_pos (by simp [hk]), List.foldlM_cons]
      simp only [packPair, bind_assoc, ih]

theorem skip_eq (size : Nat) (ps : List (Value × Value)) :
    ps.foldlM (fun b e => if inArray size e.1 then .ok b else do
      let b ← one b e.1
      one b e.2) b = (ps.filter fun e => !inArray size e.1).foldlM (packPair one) b := by
  induction ps generalizing b with
  | nil => rfl
  | cons e ps ih =>
    rw [List.foldlM_cons]
    by_cases hk : inArray size e.1 = true
    · rw [if_pos hk, List.filter_cons_of_neg (by simp [hk])]
      exact ih
    · rw [if_neg hk, List.filter_cons_of_pos (by simp [hk]), List.foldlM_cons]
      simp only [packPair, ih]

end Packs

/-! ## Tables -/

section Table

variable {h : Heap} {E : View h} {one : WriteBlock → Value → Except String WriteBlock} {b b' : WriteBlock} {t : Nat}

/-- What the iterators of `__pairs` give could be the fields of tables. -/
def View.Proper (E : View h) : Prop :=
  ∀ t ps, E.pairs t = some ps → ((E.content t).map Prod.fst).Nodup ∧
    ∀ e ∈ E.content t, IsKey e.1 = true ∧ e.2 ≠ .nil

/-- The values of the array of the table. -/
def View.arrayValues (E : View h) (t : Nat) : List Value :=
  (List.range' 1 (E.rawlen t)).map fun i => h.rawget t (.integer (Int64.ofNat i))

theorem mem_arrayFields {f : Nat → Value} {n i : Nat} {e : Value × Value} :
    e ∈ arrayFields i ((List.range' i n).map f) ↔
      ∃ j, i ≤ j ∧ j < i + n ∧ e.1 = .integer (Int64.ofNat j) ∧ e.2 = f j ∧ f j ≠ .nil := by
  induction n generalizing i with
  | zero =>
    refine iff_of_false List.not_mem_nil ?_
    rintro ⟨j, h1, h2, -⟩
    omega
  | succ n ih =>
    rw [List.range'_succ, List.map_cons, arrayFields]
    have hrest : e ∈ arrayFields (i + 1) ((List.range' (i + 1) n).map f) ↔
        ∃ j, i + 1 ≤ j ∧ j < i + (n + 1) ∧ e.1 = .integer (Int64.ofNat j) ∧ e.2 = f j ∧ f j ≠ .nil := by
      rw [ih]
      refine exists_congr fun j => ?_
      rw [show i + 1 + n = i + (n + 1) by omega]
    have hsplit : (∃ j, i ≤ j ∧ j < i + (n + 1) ∧ e.1 = .integer (Int64.ofNat j) ∧ e.2 = f j ∧ f j ≠ .nil) ↔
        (e = (.integer (Int64.ofNat i), f i) ∧ f i ≠ .nil) ∨
          e ∈ arrayFields (i + 1) ((List.range' (i + 1) n).map f) := by
      rw [hrest]
      constructor
      · rintro ⟨j, hij, hj, h1, h2, h3⟩
        rcases Nat.eq_or_lt_of_le hij with rfl | hlt
        · exact Or.inl ⟨Prod.ext h1 h2, h3⟩
        · exact Or.inr ⟨j, hlt, hj, h1, h2, h3⟩
      · rintro (⟨rfl, h3⟩ | ⟨j, hij, hj, h1, h2, h3⟩)
        · exact ⟨i, Nat.le_refl i, by omega, rfl, rfl, h3⟩
        · exact ⟨j, by omega, hj, h1, h2, h3⟩
    rw [hsplit]
    split
    · rename_i hnil
      simp [hnil]
    · rename_i hnil
      simp [hnil]

theorem nodup_arrayFields {f : Nat → Value} {n i : Nat} (hbound : i + n ≤ 2 ^ 31) :
    (arrayFields i ((List.range' i n).map f)).Nodup := by
  induction n generalizing i with
  | zero => exact List.nodup_nil
  | succ n ih =>
    rw [List.range'_succ, List.map_cons, arrayFields]
    have hrest := ih (i := i + 1) (by omega)
    split
    · exact hrest
    · refine List.nodup_cons.2 ⟨fun hmem => ?_, hrest⟩
      obtain ⟨j, hij, hj, heq, -⟩ := mem_arrayFields.1 hmem
      have := ofNat_inj (by omega) (by omega) (Value.integer.inj heq)
      omega

theorem inArray_iff {size : Nat} (hsize : size < 2 ^ 31) {k : Value} :
    inArray size k = true ↔ ∃ j, 1 ≤ j ∧ j < 1 + size ∧ k = .integer (Int64.ofNat j) := by
  constructor
  · intro hk
    cases k with
    | integer x =>
      simp only [inArray, Bool.decide_and, Bool.and_eq_true, decide_eq_true_eq] at hk
      rw [Int64.lt_iff_toInt_lt, Int64.le_iff_toInt_le, Int64.toInt_ofNat_of_lt (by omega)] at hk
      have hz : (0 : Int64).toInt = 0 := rfl
      refine ⟨x.toInt.toNat, by omega, by omega, congrArg Value.integer ?_⟩
      apply Int64.toInt_inj.1
      rw [Int64.toInt_ofNat_of_lt (by omega)]
      omega
    | _ => cases hk
  · rintro ⟨j, h1, hj, rfl⟩
    simp only [inArray, Bool.decide_and, Bool.and_eq_true, decide_eq_true_eq]
    rw [Int64.lt_iff_toInt_lt, Int64.le_iff_toInt_le, Int64.toInt_ofNat_of_lt (by omega),
      Int64.toInt_ofNat_of_lt (by omega)]
    have hz : (0 : Int64).toInt = 0 := rfl
    omega

theorem index_eq_iff {t : Table} {k v : Value} (hv : v ≠ .nil) : t.index k = v ↔ (k, v) ∈ t.entries := by
  rw [← Fields.get_eq_some_iff, Table.index]
  cases hk : t.get k with
  | none => exact iff_of_false (fun heq => hv heq.symm) (by simp)
  | some w => simp

/-- The array and the other fields are the fields of the table. -/
theorem fields_perm (E : View h) (hnone : E.pairs t = none) :
    (arrayFields 1 (E.arrayValues t) ++ (E.next t).filter fun e => !inArray (E.rawlen t) e.1).Perm (E.content t) := by
  have hlen := E.rawlen_lt t
  have hnodup : (h.table t).entries.Nodup := List.Nodup.of_map _ (h.table t).nodup
  have hnext := (E.next_perm t).nodup_iff.2 hnodup
  rw [View.content, hnone, List.perm_ext_iff_of_nodup ?_ hnodup]
  · rintro ⟨k, v⟩
    rw [List.mem_append, View.arrayValues, mem_arrayFields, List.mem_filter, (E.next_perm t).mem_iff]
    have hindex : ∀ j : Nat, h.rawget t (.integer (Int64.ofNat j)) = (h.table t).index (.integer (Int64.ofNat j)) :=
      fun _ => rfl
    simp only [hindex, Bool.not_eq_true', ← Bool.not_eq_true, inArray_iff hlen]
    constructor
    · rintro (⟨j, -, -, rfl, rfl, hne⟩ | ⟨hmem, -⟩)
      · exact (index_eq_iff hne).1 rfl
      · exact hmem
    · intro hmem
      by_cases hin : ∃ j, 1 ≤ j ∧ j < 1 + E.rawlen t ∧ k = .integer (Int64.ofNat j)
      · obtain ⟨j, h1, h2, rfl⟩ := hin
        have hne := (h.table t).values_ne_nil _ hmem
        have heq := (index_eq_iff hne).2 hmem
        exact Or.inl ⟨j, h1, h2, rfl, heq.symm, heq ▸ hne⟩
      · exact Or.inr ⟨hmem, hin⟩
  · refine List.nodup_append.2 ⟨nodup_arrayFields (by omega), hnext.filter _, ?_⟩
    rintro e he e' he' rfl
    obtain ⟨j, h1, h2, hk, -⟩ := mem_arrayFields.1 he
    have hout := (List.mem_filter.1 he').2
    have hin := (inArray_iff hlen).2 ⟨j, h1, h2, hk⟩
    rw [hin] at hout
    cases hout

theorem content_valid (hproper : E.Proper) (t : Nat) : ((E.content t).map Prod.fst).Nodup ∧
    ∀ e ∈ E.content t, IsKey e.1 = true ∧ e.2 ≠ .nil := by
  cases hp : E.pairs t with
  | some ps => exact hproper t ps hp
  | none =>
    rw [View.content, hp]
    exact ⟨(h.table t).nodup, fun e he => ⟨(h.table t).keys_isKey e he, (h.table t).values_ne_nil e he⟩⟩

/-- The header of a table, from which the size of its array is read. -/
theorem writes_header {size : Nat} (hsize : size < 2 ^ 31) : ∃ c x, c < 32 ∧
    Writes (tableHeader size) (COMBINE_TYPE TYPE_TABLE c :: x) ∧
    ∀ rest, (arraySize c).run (x ++ rest) = .ok (Int32.ofNat size, rest) := by
  have hmax : MAX_COOKIE - 1 = 31 := rfl
  by_cases hlong : size ≥ MAX_COOKIE - 1
  · obtain ⟨c, x, hc, hreal, hwrites, hread⟩ := writes_integer (Int64.ofNat size)
    refine ⟨MAX_COOKIE - 1, COMBINE_TYPE TYPE_NUMBER c :: x, by decide, ?_, ?_⟩
    · intro b hb
      rw [tableHeader, if_pos hlong]
      obtain ⟨hwf, hcontents⟩ := WriteBlock.push_spec hb [COMBINE_TYPE TYPE_TABLE (MAX_COOKIE - 1)]
      obtain ⟨hwf', hcontents'⟩ := hwrites _ hwf
      refine ⟨hwf', ?_⟩
      rw [hcontents', hcontents, List.append_assoc]
      rfl
    · intro rest
      have hone : [COMBINE_TYPE TYPE_NUMBER c].length = 1 := rfl
      obtain ⟨h1, h2⟩ := combine_spec TYPE_NUMBER (by decide) c hc
      rw [arraySize, if_pos rfl]
      refine run_bind_ok.2 ⟨[COMBINE_TYPE TYPE_NUMBER c], x ++ rest, run_read 438 _ hone, ?_⟩
      simp only [ofLe_singleton, h1, h2]
      rw [if_neg (by simp [hreal])]
      refine run_bind_ok.2 ⟨Int64.ofNat size, rest, hread rest, ?_⟩
      rw [Int64.toInt32_ofNat']
      rfl
  · refine ⟨size, [], by omega, ?_, ?_⟩
    · intro b hb
      rw [tableHeader, if_neg hlong]
      exact writes_push _ b hb
    · intro rest
      rw [arraySize, if_neg (by omega)]
      rfl

theorem wbTable_packs (hproper : E.Proper) (hone : PacksOne E.content one) (hb : b.Wf)
    (hrun : wbTable E one b t = .ok b') : Packs (Reads E.content · (.table t)) b b' := by
  obtain ⟨hnodup, hvalid⟩ := content_valid hproper t
  have hnil : Writes wbNil [UInt8.ofNat TYPE_NIL] := writes_push _
  rw [wbTable] at hrun
  cases hp : E.pairs t with
  | some ps =>
    rw [hp] at hrun
    obtain ⟨b2, hloop, hend⟩ := bind_ok.1 hrun
    cases hend
    have hhead := Packs.of_writes (Q := (· = [COMBINE_TYPE TYPE_TABLE 0])) (writes_push _) hb fun _ => rfl
    rw [metapairsLoop_eq] at hloop
    have hpairs := packPair_packs hone hhead.1 hloop
    have hlast := Packs.of_writes (Q := (· = [UInt8.ofNat TYPE_NIL])) hnil hpairs.1 fun _ => rfl
    refine ((hhead.trans hpairs).trans hlast).mono ?_
    rintro _ ⟨_, _, rfl, ⟨_, _, rfl, rfl, ys, rfl, hys⟩, rfl⟩
    have hcontent : (ps.takeWhile fun e => e.1 ≠ .nil) = E.content t := by rw [View.content, hp]
    have hperm : (arrayFields 1 [] ++ ps.takeWhile fun e => e.1 ≠ .nil).Perm (E.content t) := by
      rw [hcontent]
      exact .refl _
    have hhead' : ∀ rest, (arraySize 0).run ([] ++ rest) = .ok (Int32.ofNat 0, rest) := fun _ => rfl
    exact reads_table (by decide) (by decide) hhead' rfl .nil hys hperm hnodup hvalid
  | none =>
    rw [hp] at hrun
    obtain ⟨⟨size, b2⟩, harray, hhash⟩ := bind_ok.1 hrun
    obtain ⟨b2', harray, heq⟩ := bind_ok.1 harray
    cases heq
    obtain ⟨b3, hfields, hend⟩ := bind_ok.1 hhash
    cases hend
    obtain ⟨c, x, hc, hwrites, hread⟩ := writes_header (E.rawlen_lt t)
    have hhead := Packs.of_writes (Q := (· = COMBINE_TYPE TYPE_TABLE c :: x)) hwrites hb fun _ => rfl
    have harray' : (E.arrayValues t).foldlM one (tableHeader (E.rawlen t) b) = .ok b2 := by
      rw [View.arrayValues, List.foldlM_map]
      exact harray
    have hvalues := foldlM_packs hone hhead.1 harray'
    rw [skip_eq] at hfields
    have hpairs := packPair_packs hone hvalues.1 hfields
    have hlast := Packs.of_writes (Q := (· = [UInt8.ofNat TYPE_NIL])) hnil hpairs.1 fun _ => rfl
    refine (((hhead.trans hvalues).trans hpairs).trans hlast).mono ?_
    rintro _ ⟨_, _, rfl, ⟨_, _, rfl, ⟨_, _, rfl, rfl, xs, rfl, hxs⟩, ys, rfl, hys⟩, rfl⟩
    have hreads := reads_table hc (E.rawlen_lt t) hread (by simp [View.arrayValues]) hxs hys (fields_perm E hp) hnodup
      hvalid
    simpa only [List.cons_append, List.append_assoc] using hreads

end Table

/-! ## The round trip -/

section RoundTrip

variable {h0 : Heap} {E : View h0}

/-- What is appended for a value is read as a copy of it. -/
theorem packOne_packs (hproper : E.Proper) (n : Nat) : PacksOne E.content (packOne E n) := by
  induction n with
  | zero =>
    intro b v b' _ hrun
    cases hrun
  | succ n ih =>
    intro b v b' hb hrun
    cases v with
    | nil =>
      cases hrun
      exact .of_writes (writes_push _) hb fun _ => reads_nil _
    | boolean v =>
      cases hrun
      refine .of_writes (writes_push _) hb fun _ => reads_plain (by simp) (fun _ => .boolean v) fun n h rest => ?_
      rw [List.singleton_append, run_unpackOne (by decide) (by split <;> decide)]
      cases v <;> rfl
    | integer v =>
      cases hrun
      obtain ⟨c, x, hc, hreal, hwrites, hread⟩ := writes_integer v
      refine .of_writes hwrites hb fun _ => reads_plain (by simp) (fun _ => .integer v) fun n h rest => ?_
      rw [List.cons_append, run_unpackOne (by decide) hc]
      have hpush : pushValue (unpackOne n) n h TYPE_NUMBER c = do
          let v ← getInteger c
          return (.integer v, h) := if_neg hreal
      rw [hpush]
      exact run_bind_ok.2 ⟨v, rest, hread rest, rfl⟩
    | number v =>
      cases hrun
      refine .of_writes ((writes_push _).push _) hb fun _ => reads_plain (by simp) (fun _ => .number v)
        fun n h rest => ?_
      rw [List.append_assoc, List.singleton_append, run_unpackOne (by decide) (by decide)]
      refine run_bind_ok.2 ⟨v, rest, ?_, rfl⟩
      refine (run_read_map 405 (fun p => UInt64.ofNat (ofLe p)) rest (length_le _ _)).trans ?_
      rw [ofLe_le (UInt64.toNat_lt _), UInt64.ofNat_toNat]
    | string s =>
      cases hrun
      obtain ⟨x, hwrites, hlen, hread⟩ := writes_string s
      refine .of_writes hwrites hb fun hlt => reads_plain ?_ (fun _ => .string s) (hread (by omega))
      rintro rfl
      cases hlen
    | lightuserdata p =>
      cases hrun
      refine .of_writes ((writes_push _).push _) hb fun _ => reads_plain (by simp) (fun _ => .lightuserdata p)
        fun n h rest => ?_
      rw [List.append_assoc, List.singleton_append]
      refine (run_unpackOne (t := TYPE_USERDATA) (v := 0) (by decide) (by decide) n h _).trans ?_
      refine run_bind_ok.2 ⟨p, rest, ?_, rfl⟩
      refine (run_read_map 415 (fun p => UInt64.ofNat (ofLe p)) rest (length_le _ _)).trans ?_
      rw [ofLe_le (UInt64.toNat_lt _), UInt64.ofNat_toNat]
    | table t => exact wbTable_packs hproper ih hb hrun
    | other typename id => cases hrun

theorem readAll_reads {content : Nat → List (Value × Value)} {xs : List Bytes} {vs : List Value}
    (hxs : List.Forall₂ (Reads content) xs vs) {n m : Nat} (hn : xs.flatten.length ≤ n) (hm : xs.flatten.length ≤ m)
    (h : Heap) : ∃ vs' h', readAll (unpackOne n) m h xs.flatten = .ok (vs', h') ∧ Extends h h' ∧
      List.Forall₂ (Copy content h' h.brk h'.brk) vs vs' := by
  induction hxs generalizing m h with
  | nil => exact ⟨[], h, readAll_nil _ _, .refl h, .nil⟩
  | @cons x v xs vs hx _ ih =>
    have hpos := List.length_pos_iff.2 hx.1
    rw [List.flatten_cons, List.length_append] at hn hm
    cases m with
    | zero => omega
    | succ m =>
      obtain ⟨v', h1, hread, hcopy⟩ := hx.2 n h xs.flatten (by omega)
      have hext := (unpackOne_makes n _ _ _ _ _ hread).1
      have hm' : xs.flatten.length ≤ m := by omega
      obtain ⟨vs', h2, hrest, hext', hcopies⟩ := ih (by omega) hm' h1
      refine ⟨v' :: vs', h2, ?_, hext.trans hext', .cons ?_ (hcopies.imp fun v v' hc => ?_)⟩
      · have hne : x ++ xs.flatten ≠ [] := by simp [hx.1]
        rw [List.flatten_cons, readAll_step hne hread, hrest]
        rfl
      · exact hcopy.mono (Nat.le_refl _) hext'.brk fun u _ hu => hext'.table u hu
      · exact hc.mono hext.brk (Nat.le_refl _) fun _ _ _ => rfl

/-- What was packed is unpacked as copies of the values, in any heap, whose tables stay as they are. -/
theorem unpack_pack (hproper : E.Proper) {vs : List Value} {buffer : Bytes} (hpack : luaseriPack E vs = .ok buffer)
    (hlen : buffer.length < 2 ^ 31) (h : Heap) : ∃ vs' h', luaseriUnpack h (.userdata (some buffer) buffer.length) =
      .ok (vs', h') ∧ Extends h h' ∧ List.Forall₂ (Copy E.content h' h.brk h'.brk) vs vs' := by
  obtain ⟨b, hrun, heq⟩ := bind_ok.1 hpack
  obtain ⟨hwf, x, hcontents, hreads⟩ := foldlM_packs (packOne_packs hproper _) WriteBlock.wf_init hrun
  have hbuffer : buffer = x := by
    rw [WriteBlock.contents_init, List.nil_append] at hcontents
    rw [← hcontents, ← seri_spec hwf]
    cases heq
    rfl
  subst hbuffer
  obtain ⟨xs, rfl, hxs⟩ := hreads hlen
  have hread := readAll_reads hxs (Nat.le_refl _) (Nat.le_refl _) h
  rw [luaseriUnpack]
  by_cases hzero : xs.flatten.length = 0
  · rw [if_pos hzero]
    rw [List.length_eq_zero_iff.1 hzero] at hread
    exact hread
  · rw [if_neg hzero]
    simp only [List.take_length]
    exact hread

end RoundTrip

/-- A table with a string, a table and a float. The inner table has `__pairs`, which shows something else. -/
def someHeap : Heap where
  brk := 2
  table t :=
    if t = 0 then
      ((Table.empty.set (.string [120]) rfl (.number 0x3ff8000000000000)).set (.integer 1) rfl (.string [104, 105])).set
        (.integer 2) rfl (.table 1)
    else if t = 1 then Table.empty.set (.boolean true) rfl (.lightuserdata 7)
    else .empty

def someView : View someHeap where
  next t := (someHeap.table t).entries
  next_perm _ := .refl _
  rawlen t := if t = 0 then 2 else 0
  rawlen_lt t := by split <;> decide
  rawlen_border t := by
    split
    · rename_i h
      subst h
      exact Or.inr (by decide)
    · exact Or.inl rfl
  pairs t := if t = 1 then some [(.string [121], .boolean true)] else none

theorem someView_proper : someView.Proper := by
  intro t ps hps
  simp only [someView] at hps
  split at hps
  · rename_i h
    subst h
    decide
  · cases hps

theorem unpack_pack_someHeap : ∃ buffer vs' h', luaseriPack someView [.table 0, .integer (-5), .nil] = .ok buffer ∧
    luaseriUnpack .empty (.userdata (some buffer) buffer.length) = .ok (vs', h') ∧ Extends .empty h' ∧
    List.Forall₂ (Copy someView.content h' Heap.empty.brk h'.brk) [.table 0, .integer (-5), .nil] vs' := by
  have hpack : (luaseriPack someView [.table 0, .integer (-5), .nil]).toOption = some [22, 20, 104, 105, 6, 12, 121,
      9, 0, 12, 120, 66, 0, 0, 0, 0, 0, 0, 248, 63, 0, 34, 251, 255, 255, 255, 0] := by decide +kernel
  cases hrun : luaseriPack someView [.table 0, .integer (-5), .nil] with
  | error e =>
    rw [hrun] at hpack
    cases hpack
  | ok buffer =>
    rw [hrun] at hpack
    cases hpack
    obtain ⟨vs', h', hunpack⟩ := unpack_pack someView_proper hrun (by decide) .empty
    exact ⟨_, vs', h', rfl, hunpack⟩

/-! ## What can be packed -/

section Packable

variable {h0 : Heap} {E : View h0}

/-- From the first value the other one is reached through the fields of as many tables. -/
inductive Path (E : View h0) : Nat → Value → Value → Prop
  | refl (v : Value) : Path E 0 v v
  | key {n t : Nat} {k v w : Value} (hmem : (k, v) ∈ E.content t) (h : Path E n k w) : Path E (n + 1) (.table t) w
  | value {n t : Nat} {k v w : Value} (hmem : (k, v) ∈ E.content t) (h : Path E n v w) : Path E (n + 1) (.table t) w

def supported : Value → Bool
  | .other _ _ => false
  | _ => true

/-- What is reached is less than `n` tables deep, and can be written. -/
def Within (E : View h0) (n : Nat) (v : Value) : Prop := ∀ m w, Path E m v w → m < n ∧ supported w = true

theorem within_plain {n : Nat} {v : Value} (htable : ∀ t, v ≠ .table t) :
    Within E n v ↔ 0 < n ∧ supported v = true := by
  constructor
  · intro hw
    exact hw 0 v (.refl v)
  · rintro hw m w (_ | _ | _)
    · exact hw
    · exact absurd rfl (htable _)
    · exact absurd rfl (htable _)

theorem Within.pos {n : Nat} {v : Value} (hw : Within E n v) : 0 < n := (hw 0 v (.refl v)).1

theorem within_table {n t : Nat} :
    Within E (n + 1) (.table t) ↔ ∀ e ∈ E.content t, Within E n e.1 ∧ Within E n e.2 := by
  constructor
  · intro hw e he
    refine ⟨fun m w hp => ?_, fun m w hp => ?_⟩
    · obtain ⟨hlt, hs⟩ := hw _ w (.key he hp)
      exact ⟨Nat.lt_of_succ_lt_succ hlt, hs⟩
    · obtain ⟨hlt, hs⟩ := hw _ w (.value he hp)
      exact ⟨Nat.lt_of_succ_lt_succ hlt, hs⟩
  · rintro hw m w (_ | ⟨hmem, hp⟩ | ⟨hmem, hp⟩)
    · exact ⟨Nat.succ_pos n, rfl⟩
    · obtain ⟨hlt, hs⟩ := (hw _ hmem).1 _ w hp
      exact ⟨Nat.succ_lt_succ hlt, hs⟩
    · obtain ⟨hlt, hs⟩ := (hw _ hmem).2 _ w hp
      exact ⟨Nat.succ_lt_succ hlt, hs⟩

theorem foldlM_ok {α : Type} {one : WriteBlock → α → Except String WriteBlock} {P : α → Prop} {l : List α}
    (hone : ∀ b, ∀ a ∈ l, (∃ b', one b a = .ok b') ↔ P a) (b : WriteBlock) :
    (∃ b', l.foldlM one b = .ok b') ↔ ∀ a ∈ l, P a := by
  induction l generalizing b with
  | nil => exact iff_of_true ⟨b, rfl⟩ nofun
  | cons a l ih =>
    have hrest := ih fun b x hx => hone b x (List.mem_cons_of_mem a hx)
    rw [List.forall_mem_cons, ← hone b a List.mem_cons_self]
    constructor
    · rintro ⟨b', hb'⟩
      rw [List.foldlM_cons] at hb'
      obtain ⟨b1, h1, h2⟩ := bind_ok.1 hb'
      exact ⟨⟨b1, h1⟩, (hrest b1).1 ⟨b', h2⟩⟩
    · rintro ⟨⟨b1, h1⟩, hall⟩
      obtain ⟨b', h2⟩ := (hrest b1).2 hall
      refine ⟨b', ?_⟩
      rw [List.foldlM_cons]
      exact bind_ok.2 ⟨b1, h1, h2⟩

theorem packPair_ok {one : WriteBlock → Value → Except String WriteBlock} {P : Value → Prop}
    (hone : ∀ b v, (∃ b', one b v = .ok b') ↔ P v) (b : WriteBlock) (e : Value × Value) :
    (∃ b', packPair one b e = .ok b') ↔ P e.1 ∧ P e.2 := by
  constructor
  · rintro ⟨b', hb'⟩
    obtain ⟨b1, h1, h2⟩ := bind_ok.1 hb'
    exact ⟨(hone b e.1).1 ⟨b1, h1⟩, (hone b1 e.2).1 ⟨b', h2⟩⟩
  · rintro ⟨hk, hv⟩
    obtain ⟨b1, h1⟩ := (hone b e.1).2 hk
    obtain ⟨b', h2⟩ := (hone b1 e.2).2 hv
    exact ⟨b', bind_ok.2 ⟨b1, h1, h2⟩⟩

/-- The values that are written of a table are those of its fields, and `nil` only beside others. -/
theorem wbTable_ok {one : WriteBlock → Value → Except String WriteBlock} {n : Nat}
    (hone : ∀ b v, (∃ b', one b v = .ok b') ↔ Within E n v) (b : WriteBlock) (t : Nat) :
    (∃ b', wbTable E one b t = .ok b') ↔ ∀ e ∈ E.content t, Within E n e.1 ∧ Within E n e.2 := by
  have hpairs := fun ps b => foldlM_ok (l := ps) (fun b e _ => packPair_ok hone b e) b
  rw [wbTable]
  cases hp : E.pairs t with
  | some ps =>
    have hcontent : E.content t = ps.takeWhile fun e => e.1 ≠ .nil := by rw [View.content, hp]
    rw [hcontent, ← hpairs _ (b.push [COMBINE_TYPE TYPE_TABLE 0]), ← metapairsLoop_eq]
    constructor
    · rintro ⟨b', hb'⟩
      obtain ⟨b1, h1, -⟩ := bind_ok.1 hb'
      exact ⟨b1, h1⟩
    · rintro ⟨b1, h1⟩
      exact ⟨_, bind_ok.2 ⟨b1, h1, rfl⟩⟩
  | none =>
    have hperm := fields_perm E hp
    have hloop : (∃ b', (wbTableArray E one b t >>= fun p => wbTableHash E one p.2 t p.1) = .ok b') ↔
        (∀ v ∈ E.arrayValues t, Within E n v) ∧
          ∀ e ∈ (E.next t).filter fun e => !inArray (E.rawlen t) e.1, Within E n e.1 ∧ Within E n e.2 := by
      have harray := foldlM_ok (l := E.arrayValues t) (fun b v _ => hone b v) (tableHeader (E.rawlen t) b)
      rw [View.arrayValues, List.foldlM_map, ← View.arrayValues] at harray
      rw [← harray]
      constructor
      · rintro ⟨b', hb'⟩
        obtain ⟨⟨size, b2⟩, h1, h2⟩ := bind_ok.1 hb'
        obtain ⟨b1, h3, heq⟩ := bind_ok.1 h1
        cases heq
        obtain ⟨b3, h4, -⟩ := bind_ok.1 h2
        rw [skip_eq] at h4
        exact ⟨⟨b2, h3⟩, (hpairs _ b2).1 ⟨b3, h4⟩⟩
      · rintro ⟨⟨b2, h3⟩, hall⟩
        obtain ⟨b3, h4⟩ := (hpairs _ b2).2 hall
        rw [← skip_eq] at h4
        exact ⟨wbNil b3, bind_ok.2 ⟨(E.rawlen t, b2), bind_ok.2 ⟨b2, h3, rfl⟩, bind_ok.2 ⟨b3, h4, rfl⟩⟩⟩
    refine hloop.trans ⟨?_, ?_⟩
    · rintro ⟨harray, hhash⟩ e he
      rcases List.mem_append.1 (hperm.mem_iff.2 he) with hmem | hmem
      · rw [View.arrayValues] at hmem
        obtain ⟨j, h1, h2, hk, hv, -⟩ := mem_arrayFields.1 hmem
        have hval : Within E n e.2 := by
          rw [hv]
          exact harray _ (List.mem_map.2 ⟨j, List.mem_range'_1.2 ⟨h1, h2⟩, rfl⟩)
        rw [hk]
        exact ⟨(within_plain (by simp)).2 ⟨hval.pos, rfl⟩, hval⟩
      · exact hhash e hmem
    · intro hall
      refine ⟨fun v hv => ?_, fun e he => hall e (hperm.subset (List.mem_append_right _ he))⟩
      have hfield : ∀ j, 1 ≤ j → j < 1 + E.rawlen t → h0.rawget t (.integer (Int64.ofNat j)) ≠ .nil →
          Within E n (h0.rawget t (.integer (Int64.ofNat j))) := by
        intro j h1 h2 hne
        have hmem : (Value.integer (Int64.ofNat j), h0.rawget t (.integer (Int64.ofNat j))) ∈
            arrayFields 1 (E.arrayValues t) := by
          rw [View.arrayValues]
          exact mem_arrayFields.2 ⟨j, h1, h2, rfl, rfl, hne⟩
        exact (hall _ (hperm.subset (List.mem_append_left _ hmem))).2
      obtain ⟨j, hj, rfl⟩ := List.mem_map.1 hv
      obtain ⟨h1, h2⟩ := List.mem_range'_1.1 hj
      by_cases hne : h0.rawget t (.integer (Int64.ofNat j)) = .nil
      · -- a hole: the last value of the array is there
        rcases E.rawlen_border t with hzero | hborder
        · omega
        · have hlast := hfield (E.rawlen t) (by omega) (by omega) hborder
          rw [hne]
          exact (within_plain (by simp)).2 ⟨hlast.pos, rfl⟩
      · exact hfield j h1 h2 hne

theorem packOne_ok (n : Nat) (b : WriteBlock) (v : Value) : (∃ b', packOne E n b v = .ok b') ↔ Within E n v := by
  induction n generalizing b v with
  | zero =>
    refine iff_of_false ?_ fun hw => Nat.lt_irrefl 0 hw.pos
    rintro ⟨b', hb'⟩
    cases hb'
  | succ n ih =>
    cases v with
    | table t => exact (wbTable_ok ih b t).trans within_table.symm
    | other typename id =>
      rw [within_plain (by simp)]
      refine iff_of_false ?_ (by simp [supported])
      rintro ⟨b', hb'⟩
      cases hb'
    | _ => exact iff_of_true ⟨_, rfl⟩ ((within_plain (by simp)).2 ⟨Nat.succ_pos n, rfl⟩)

/-- A message is packed if and only if nothing is reached from it through more than `MAX_DEPTH` tables, and no value of
another type. -/
theorem pack_ok_iff (E : View h0) (vs : List Value) : (∃ buffer, luaseriPack E vs = .ok buffer) ↔
    ∀ v ∈ vs, ∀ n w, Path E n v w → n ≤ MAX_DEPTH ∧ supported w = true := by
  have hfrom := foldlM_ok (l := vs) (fun b v _ => packOne_ok (E := E) (MAX_DEPTH + 1) b v) .init
  have hwithin : (∀ v ∈ vs, Within E (MAX_DEPTH + 1) v) ↔
      ∀ v ∈ vs, ∀ n w, Path E n v w → n ≤ MAX_DEPTH ∧ supported w = true := by
    simp only [Within, Nat.lt_succ_iff]
  rw [← hwithin, ← hfrom]
  constructor
  · rintro ⟨buffer, hbuffer⟩
    obtain ⟨b, h1, -⟩ := bind_ok.1 hbuffer
    exact ⟨b, h1⟩
  · rintro ⟨b, h1⟩
    exact ⟨_, bind_ok.2 ⟨b, h1, rfl⟩⟩

end Packable

end RoundGame.Skynet.Seri
