import RoundGame.Lib.Reader
import RoundGame.Skynet.Seri

/-!
# Unpacking of Lua values

`luaseri_unpack` of `lua-seri.c`: values are read off a buffer until nothing is left of it (`unpackOne`,
`luaseriUnpack`). A table is made before its fields are read. An error names the number of bytes that were left and the
line of the source that found it.

`unpackOne n` reads with at most `n` values inside each other; every number that is not less than the length of the
buffer gives the same (`unpackOne_fuel`). What is read depends on what is taken only (`unpackOne_local`), so that from a
buffer that was cut nothing else is read than what is in the whole buffer (`unpackAll_append`).

That Lua has no memory for a table as large as the buffer says, and no stack for tables so deep, is left out.
-/

namespace RoundGame.Skynet.Seri

open Framing LuaHeap

abbrev ReadBlock := Reader String UInt8

def rbRead (sz : Nat) : ReadBlock (Option Bytes) := fun rb =>
  if rb.length < sz then .ok (none, rb) else .ok (some (rb.take sz), rb.drop sz)

def invalidStreamLine {α : Type} (line : Nat) : ReadBlock α := fun rb =>
  .error ("Invalid serialize stream " ++ toString rb.length ++ " (line:" ++ toString line ++ ")")

/-- `sz` bytes, which have to be there. -/
def read (sz line : Nat) : ReadBlock Bytes := do
  match ← rbRead sz with
  | some p => return p
  | none => invalidStreamLine line

def getInteger (cookie : Nat) : ReadBlock Int64 :=
  if cookie = TYPE_NUMBER_ZERO then return 0
  else if cookie = TYPE_NUMBER_BYTE then do
    let pn ← read 1 366
    return Int64.ofNat (ofLe pn)
  else if cookie = TYPE_NUMBER_WORD then do
    let pn ← read 2 374
    return Int64.ofNat (ofLe pn)
  else if cookie = TYPE_NUMBER_DWORD then do
    let pn ← read 4 382
    return (UInt32.ofNat (ofLe pn)).toInt32.toInt64
  else if cookie = TYPE_NUMBER_QWORD then do
    let pn ← read 8 390
    return (UInt64.ofNat (ofLe pn)).toInt64
  else invalidStreamLine 395

def getReal : ReadBlock UInt64 := do
  let pn ← read 8 405
  return UInt64.ofNat (ofLe pn)

def getPointer : ReadBlock UInt64 := do
  let v ← read 8 415
  return UInt64.ofNat (ofLe v)

/-- `len` is an `int` in the code: a length of a long string that is `2 ^ 31` or more is negative there, and then it is
`lua_pushlstring` that raises, with another text than here. -/
def getBuffer (len : Nat) : ReadBlock Bytes := read len 425

section Table

-- `one` reads a value
variable (one : Heap → ReadBlock (Value × Heap))

/-- The `n` values of the array from `i` on. -/
def arrayLoop (t : Nat) : Nat → Nat → Heap → ReadBlock Heap
  | 0, _, h => return h
  | n + 1, i, h => do
    let (v, h) ← one h
    arrayLoop t n (i + 1) (h.rawseti t (Int64.ofNat i) v)

/-- The other fields, at most `n`, until a key is `nil`. -/
def hashLoop (t : Nat) : Nat → Heap → ReadBlock Heap
  | 0, _ => invalidStreamLine 526
  | n + 1, h => do
    let (k, h) ← one h
    if k = .nil then return h
    else do
      let (v, h) ← one h
      let h ← liftM (h.rawset t k v)
      hashLoop t n h

def arraySize (cookie : Nat) : ReadBlock Int32 :=
  if cookie = MAX_COOKIE - 1 then do
    let t ← read 1 438
    let type := ofLe t
    let cookie := type >>> 3
    if type &&& 7 ≠ TYPE_NUMBER ∨ cookie = TYPE_NUMBER_REAL then invalidStreamLine 443
    else do
      let x ← getInteger cookie
      return x.toInt32
  else return Int32.ofNat cookie

def unpackTable (n : Nat) (h : Heap) (cookie : Nat) : ReadBlock (Value × Heap) := do
  let size ← arraySize cookie
  let (t, h) := h.create
  let h ← arrayLoop one t size.toInt.toNat 1 h
  let h ← hashLoop one t n h
  return (.table t, h)

def pushValue (n : Nat) (h : Heap) (type cookie : Nat) : ReadBlock (Value × Heap) :=
  if type = TYPE_NIL then return (.nil, h)
  else if type = TYPE_BOOLEAN then return (.boolean (cookie ≠ 0), h)
  else if type = TYPE_NUMBER then
    if cookie = TYPE_NUMBER_REAL then do
      let v ← getReal
      return (.number v, h)
    else do
      let v ← getInteger cookie
      return (.integer v, h)
  else if type = TYPE_USERDATA then do
    let v ← getPointer
    return (.lightuserdata v, h)
  else if type = TYPE_SHORT_STRING then do
    let s ← getBuffer cookie
    return (.string s, h)
  else if type = TYPE_LONG_STRING then
    if cookie = 2 then do
      let plen ← read 2 491
      let s ← getBuffer (ofLe plen)
      return (.string s, h)
    else if cookie ≠ 4 then invalidStreamLine 498
    else do
      let plen ← read 4 502
      let s ← getBuffer (ofLe plen)
      return (.string s, h)
  else if type = TYPE_TABLE then unpackTable one n h cookie
  else invalidStreamLine 515

end Table

def unpackOne : Nat → Heap → ReadBlock (Value × Heap)
  | 0, _ => invalidStreamLine 526
  | n + 1, h => do
    let t ← read 1 526
    pushValue (unpackOne n) n h (ofLe t &&& 7) (ofLe t >>> 3)

/-- What is given to `luaseri_unpack`: nothing, a string, or a pointer (which may be NULL) and a length. -/
inductive Packed
  | none
  | string (s : Bytes)
  | userdata (buffer : Option Bytes) (len : Nat)

/-- The loop reads values as long as there is a byte left. -/
def unpackAll (h : Heap) (buffer : Bytes) : Except String (List Value × Heap) :=
  Reader.readAll (unpackOne buffer.length) buffer.length h buffer

def luaseriUnpack (h : Heap) : Packed → Except String (List Value × Heap)
  | .none => .ok ([], h)
  | .string s => if s.length = 0 then .ok ([], h) else unpackAll h s
  | .userdata buffer len =>
    if len = 0 then .ok ([], h)
    else
      match buffer with
      | Option.none => .error "deserialize null pointer"
      | some buffer => unpackAll h (buffer.take len)

/-! ## What is read depends on what is taken -/

open Reader

theorem run_read_ok {sz line : Nat} {rb p rest : Bytes} :
    (read sz line).run rb = .ok (p, rest) ↔ rb = p ++ rest ∧ p.length = sz := by
  by_cases hlt : rb.length < sz
  · have hread : (read sz line).run rb = (invalidStreamLine line : ReadBlock Bytes).run rb := by
      rw [read, StateT.run_bind]
      simp [rbRead, StateT.run, hlt, bind, Except.bind]
    rw [hread]
    refine iff_of_false (fun hno => by cases hno) ?_
    rintro ⟨rfl, hlen⟩
    rw [List.length_append] at hlt
    omega
  · have hread : (read sz line).run rb = .ok (rb.take sz, rb.drop sz) := by
      rw [read, StateT.run_bind]
      simp [rbRead, StateT.run, hlt, bind, Except.bind]
      rfl
    rw [hread]
    constructor
    · intro h
      cases h
      exact ⟨(List.take_append_drop sz rb).symm, by rw [List.length_take]; omega⟩
    · rintro ⟨rfl, rfl⟩
      simp

theorem local_invalid {α : Type} (line : Nat) : Local (invalidStreamLine line : ReadBlock α) :=
  .of_error fun _ => rfl

theorem local_read (sz line : Nat) : Local (read sz line) := by
  intro rb p rest h
  obtain ⟨rfl, hlen⟩ := run_read_ok.1 h
  exact ⟨p, rfl, fun rest' => run_read_ok.2 ⟨rfl, hlen⟩⟩

theorem eats_read {sz line : Nat} (hsz : 0 < sz) : Eats (read sz line) := by
  intro rb p rest h
  obtain ⟨rfl, hlen⟩ := run_read_ok.1 h
  rw [List.length_append]
  omega

/-- A reader that reads some bytes and makes a value of them. -/
theorem local_read_map {α : Type} (sz line : Nat) (f : Bytes → α) :
    Local (do
      let p ← read sz line
      return f p) :=
  (local_read sz line).bind fun _ => .pure _

theorem local_getInteger (cookie : Nat) : Local (getInteger cookie) := by
  rw [getInteger]
  split
  · exact .pure _
  split
  · exact local_read_map ..
  split
  · exact local_read_map ..
  split
  · exact local_read_map ..
  split
  · exact local_read_map ..
  · exact local_invalid _

section Local

variable {one : Heap → ReadBlock (Value × Heap)} (hone : ∀ h, Local (one h))
include hone

theorem local_arrayLoop (t n i : Nat) (h : Heap) : Local (arrayLoop one t n i h) := by
  induction n generalizing i h with
  | zero => exact .pure _
  | succ n ih => exact (hone h).bind fun _ => ih ..

theorem local_hashLoop (t n : Nat) (h : Heap) : Local (hashLoop one t n h) := by
  induction n generalizing h with
  | zero => exact local_invalid _
  | succ n ih =>
    refine (hone h).bind ?_
    rintro ⟨k, h⟩
    dsimp only
    split
    · exact .pure _
    · refine (hone h).bind ?_
      rintro ⟨v, h⟩
      dsimp only
      cases h.rawset t k v with
      | error e => exact .of_error fun _ => rfl
      | ok h => exact ih h

omit hone in
theorem local_arraySize (cookie : Nat) : Local (arraySize cookie) := by
  rw [arraySize]
  split
  · refine (local_read _ _).bind fun t => ?_
    simp only
    split
    · exact local_invalid _
    · exact (local_getInteger _).bind fun _ => .pure _
  · exact .pure _

theorem local_unpackTable (n : Nat) (h : Heap) (cookie : Nat) : Local (unpackTable one n h cookie) := by
  refine (local_arraySize cookie).bind fun size => ?_
  refine (local_arrayLoop hone ..).bind fun h' => ?_
  exact (local_hashLoop hone ..).bind fun _ => .pure _

theorem local_pushValue (n : Nat) (h : Heap) (type cookie : Nat) : Local (pushValue one n h type cookie) := by
  rw [pushValue]
  split
  · exact .pure _
  split
  · exact .pure _
  split
  · split
    · exact (local_read_map ..).bind fun _ => .pure _
    · exact (local_getInteger _).bind fun _ => .pure _
  split
  · exact (local_read_map ..).bind fun _ => .pure _
  split
  · exact local_read_map ..
  split
  · split
    · exact (local_read _ _).bind fun _ => local_read_map ..
    · split
      · exact local_invalid _
      · exact (local_read _ _).bind fun _ => local_read_map ..
  split
  · exact local_unpackTable hone ..
  · exact local_invalid _

end Local

theorem unpackOne_local (n : Nat) (h : Heap) : Local (unpackOne n h) := by
  induction n generalizing h with
  | zero => exact local_invalid _
  | succ n ih => exact (local_read 1 526).bind fun _ => local_pushValue ih ..

theorem unpackOne_eats (n : Nat) (h : Heap) : Eats (unpackOne n h) := by
  cases n with
  | zero =>
    intro rb a rest hno
    cases hno
  | succ n => exact (eats_read Nat.one_pos).bind fun _ => local_pushValue (unpackOne_local n) ..

/-! ## What was there before -/

section Extends

variable {one : Heap → ReadBlock (Value × Heap)} {n k i t : Nat} {h h' h0 : Heap} {rb rest : Bytes} {v : Value}

/-- What `one` reads leaves the tables as they are, and if it is a table, the table is new. -/
def Makes (one : Heap → ReadBlock (Value × Heap)) : Prop :=
  ∀ h rb v h' rest, (one h).run rb = .ok ((v, h'), rest) →
    Extends h h' ∧ ∀ t, v = .table t → h.brk ≤ t ∧ t < h'.brk

theorem arrayLoop_extends (hone : Makes one) (h0h : Extends h0 h) (ht : h0.brk ≤ t)
    (hrun : (arrayLoop one t k i h).run rb = .ok (h', rest)) : Extends h0 h' ∧ h.brk ≤ h'.brk := by
  induction k generalizing i h rb with
  | zero =>
    obtain ⟨rfl, -⟩ := run_pure_ok.1 hrun
    exact ⟨h0h, Nat.le_refl _⟩
  | succ k ih =>
    obtain ⟨⟨v, h1⟩, mid, hread, hrest⟩ := run_bind_ok.1 hrun
    have hext := (hone _ _ _ _ _ hread).1
    obtain ⟨hext', hle⟩ := ih ((h0h.trans hext).set ht rfl) hrest
    exact ⟨hext', Nat.le_trans hext.brk hle⟩

theorem hashLoop_extends (hone : Makes one) (h0h : Extends h0 h) (ht : h0.brk ≤ t)
    (hrun : (hashLoop one t n h).run rb = .ok (h', rest)) : Extends h0 h' ∧ h.brk ≤ h'.brk := by
  induction n generalizing h rb with
  | zero => cases hrun
  | succ n ih =>
    obtain ⟨⟨k, h1⟩, mid, hread, hrest⟩ := run_bind_ok.1 hrun
    have hext := (hone _ _ _ _ _ hread).1
    dsimp only at hrest
    split at hrest
    · obtain ⟨rfl, -⟩ := run_pure_ok.1 hrest
      exact ⟨h0h.trans hext, hext.brk⟩
    · obtain ⟨⟨v, h2⟩, mid', hread', hrest⟩ := run_bind_ok.1 hrest
      have hboth := hext.trans (hone _ _ _ _ _ hread').1
      dsimp only at hrest
      cases hset : h2.rawset t k v with
      | error e =>
        rw [hset] at hrest
        cases hrest
      | ok h3 =>
        rw [hset] at hrest
        obtain ⟨hk, rfl⟩ := Heap.rawset_ok hset
        obtain ⟨hext', hle⟩ := ih ((h0h.trans hboth).set ht hk) hrest
        exact ⟨hext', Nat.le_trans hboth.brk hle⟩

theorem unpackTable_makes (hone : Makes one) {cookie : Nat}
    (hrun : (unpackTable one n h cookie).run rb = .ok ((v, h'), rest)) :
    Extends h h' ∧ ∀ t, v = .table t → h.brk ≤ t ∧ t < h'.brk := by
  obtain ⟨size, mid, -, hrun⟩ := run_bind_ok.1 hrun
  obtain ⟨h1, mid1, harray, hrun⟩ := run_bind_ok.1 hrun
  obtain ⟨h2, mid2, hhash, hrun⟩ := run_bind_ok.1 hrun
  obtain ⟨heq, -⟩ := run_pure_ok.1 hrun
  cases heq
  have hle : h.brk ≤ h.create.2.brk := (Extends.create h).brk
  obtain ⟨harray', hle1⟩ := arrayLoop_extends hone (Extends.create h) (Nat.le_refl _) harray
  obtain ⟨hhash', hle2⟩ := hashLoop_extends hone harray' (Nat.le_refl _) hhash
  refine ⟨hhash', fun t ht => ?_⟩
  cases ht
  exact ⟨Nat.le_refl _, Nat.lt_of_lt_of_le (Nat.lt_succ_self _) (Nat.le_trans hle1 hle2)⟩

theorem pushValue_makes (hone : Makes one) {type cookie : Nat}
    (hrun : (pushValue one n h type cookie).run rb = .ok ((v, h'), rest)) :
    Extends h h' ∧ ∀ t, v = .table t → h.brk ≤ t ∧ t < h'.brk := by
  -- a value that is not a table
  have hplain : ∀ {α : Type} {r : ReadBlock α} {f : α → Value} {rb : Bytes}, (∀ a t, f a ≠ .table t) →
      (r >>= fun a => pure (f a, h)).run rb = .ok ((v, h'), rest) →
      Extends h h' ∧ ∀ t, v = .table t → h.brk ≤ t ∧ t < h'.brk := by
    intro α r f rb hf hrun
    obtain ⟨a, mid, -, hrun⟩ := run_bind_ok.1 hrun
    obtain ⟨heq, -⟩ := run_pure_ok.1 hrun
    cases heq
    exact ⟨.refl h, fun t ht => absurd ht (hf a t)⟩
  rw [pushValue] at hrun
  split at hrun
  · exact hplain (r := pure ()) (f := fun _ => .nil) nofun hrun
  split at hrun
  · exact hplain (r := pure ()) (f := fun _ => .boolean _) nofun hrun
  split at hrun
  · split at hrun
    · exact hplain (f := .number) nofun hrun
    · exact hplain (f := .integer) nofun hrun
  split at hrun
  · exact hplain (f := .lightuserdata) nofun hrun
  split at hrun
  · exact hplain (f := .string) nofun hrun
  split at hrun
  · split at hrun
    · obtain ⟨plen, mid, -, hrun⟩ := run_bind_ok.1 hrun
      exact hplain (f := .string) nofun hrun
    · split at hrun
      · cases hrun
      · obtain ⟨plen, mid, -, hrun⟩ := run_bind_ok.1 hrun
        exact hplain (f := .string) nofun hrun
  split at hrun
  · exact unpackTable_makes hone hrun
  · cases hrun

end Extends

theorem unpackOne_makes (n : Nat) : Makes (unpackOne n) := by
  induction n with
  | zero =>
    intro h rb v h' rest hrun
    cases hrun
  | succ n ih =>
    intro h rb v h' rest hrun
    obtain ⟨t, mid, -, hrun⟩ := run_bind_ok.1 hrun
    exact pushValue_makes ih hrun

/-! ## The bound on the nesting -/

section Agree

variable {one one' : Heap → ReadBlock (Value × Heap)} {L n m : Nat}

theorem arrayLoop_agree (hone : ∀ h, Local (one h)) (hsame : ∀ h, Agree L (one h) (one' h)) (t k i : Nat) (h : Heap) :
    Agree L (arrayLoop one t k i h) (arrayLoop one' t k i h) := by
  induction k generalizing i h with
  | zero => exact .refl _ _
  | succ k ih => exact (hsame h).bind (hone h) fun p => ih (i + 1) _

theorem hashLoop_agree (hone : ∀ h, Local (one h)) (heats : ∀ h, Eats (one h))
    (hnil : ∀ h, (one h).run [] = (invalidStreamLine 526 : ReadBlock (Value × Heap)).run [])
    (hsame : ∀ h, Agree L (one h) (one' h)) (hn : L ≤ n) (hm : L ≤ m) (t : Nat) (h : Heap) :
    Agree L (hashLoop one t n h) (hashLoop one' t m h) := by
  -- nothing is left for a loop that may not go on
  have hend : ∀ {one : Heap → ReadBlock (Value × Heap)} {n : Nat} {h : Heap},
      (one h).run [] = (invalidStreamLine 526 : ReadBlock (Value × Heap)).run [] →
      (hashLoop one t n h).run [] = (invalidStreamLine 526 : ReadBlock Heap).run [] := by
    intro one n h hnil
    cases n with
    | zero => rfl
    | succ n =>
      rw [hashLoop, StateT.run_bind, hnil]
      rfl
  induction L generalizing n m h with
  | zero =>
    intro rb hrb
    obtain rfl := List.length_eq_zero_iff.1 (Nat.le_zero.1 hrb)
    rw [hend (hnil h), hend ((hsame h [] (Nat.le_refl _)).symm.trans (hnil h))]
  | succ L ih =>
    cases n with
    | zero => omega
    | succ n =>
      cases m with
      | zero => omega
      | succ m =>
        refine (hsame h).bind_eats (heats h) ?_
        rintro ⟨k, h⟩
        dsimp only
        split
        · exact .refl _ _
        · refine ((hsame h).mono (Nat.le_succ L)).bind (hone h) ?_
          rintro ⟨v, h⟩
          dsimp only
          cases h.rawset t k v with
          | error e => exact .refl _ _
          | ok h => exact ih (fun h => (hsame h).mono (Nat.le_succ L)) (by omega) (by omega) h

theorem pushValue_agree (hone : ∀ h, Local (one h)) (heats : ∀ h, Eats (one h))
    (hnil : ∀ h, (one h).run [] = (invalidStreamLine 526 : ReadBlock (Value × Heap)).run [])
    (hsame : ∀ h, Agree L (one h) (one' h)) (hn : L ≤ n) (hm : L ≤ m) (h : Heap) (type cookie : Nat) :
    Agree L (pushValue one n h type cookie) (pushValue one' m h type cookie) := by
  have htable : Agree L (unpackTable one n h cookie) (unpackTable one' m h cookie) := by
    refine (Agree.refl _ _).bind (local_arraySize cookie) fun size => ?_
    refine (arrayLoop_agree hone hsame _ _ _ _).bind (local_arrayLoop hone ..) fun h' => ?_
    exact (hashLoop_agree hone heats hnil hsame hn hm _ _).bind (local_hashLoop hone ..) fun _ => .refl _ _
  by_cases ht : type = TYPE_TABLE
  · subst ht
    exact htable
  · intro rb _
    simp only [pushValue, if_neg ht]

end Agree

theorem unpackOne_nil (n : Nat) (h : Heap) :
    (unpackOne n h).run [] = (invalidStreamLine 526 : ReadBlock (Value × Heap)).run [] := by
  cases n <;> rfl

/-- How often values may be inside each other does not matter, if the stream is not longer. -/
theorem unpackOne_fuel {L n m : Nat} (hn : L ≤ n) (hm : L ≤ m) (h : Heap) :
    Agree L (unpackOne n h) (unpackOne m h) := by
  induction L generalizing n m h with
  | zero =>
    intro rb hrb
    obtain rfl := List.length_eq_zero_iff.1 (Nat.le_zero.1 hrb)
    rw [unpackOne_nil, unpackOne_nil]
  | succ L ih =>
    cases n with
    | zero => omega
    | succ n =>
      cases m with
      | zero => omega
      | succ m =>
        refine (Agree.refl _ _).bind_eats (eats_read Nat.one_pos) fun t => ?_
        have hle : L ≤ n := by omega
        have hle' : L ≤ m := by omega
        exact pushValue_agree (unpackOne_local n) (unpackOne_eats n) (unpackOne_nil n) (ih hle hle') hle hle' h _ _

/-- From the beginning of a buffer the first values of the buffer are read, or none at all: the tables that were made
for them are as they are when the whole buffer is read. -/
theorem unpackAll_append {h h' h'' : Heap} {p q : Bytes} {vs vs' : List Value}
    (hp : unpackAll h p = .ok (vs, h')) (hpq : unpackAll h (p ++ q) = .ok (vs', h'')) :
    vs <+: vs' ∧ Extends h' h'' := by
  have hle : p.length ≤ (p ++ q).length := by simp
  have hsame := unpackOne_fuel (Nat.le_refl p.length) hle
  rw [unpackAll, readAll_agree hsame (unpackOne_local _) (Nat.le_refl _)] at hp
  obtain ⟨ws, k, rfl, hrest⟩ :=
    readAll_append (unpackOne_local _) (unpackOne_eats _) (Nat.le_refl _) (Nat.le_refl _) hp hpq
  refine ⟨List.prefix_append vs ws, readAll_rel .refl .trans (fun hread => ?_) hrest⟩
  exact (unpackOne_makes _ _ _ _ _ _ hread).1

/-- A buffer with two tables and a number, cut behind the first table. -/
theorem unpackAll_append_table : ∃ vs h' vs' h'', unpackAll .empty [14, 10, 7, 0] = .ok (vs, h') ∧
    unpackAll .empty ([14, 10, 7, 0] ++ [14, 10, 5, 0, 10, 5]) = .ok (vs', h'') ∧ vs <+: vs' ∧ Extends h' h'' := by
  have hp : (unpackAll .empty [14, 10, 7, 0]).toOption.isSome = true := by decide +kernel
  have hpq : (unpackAll .empty ([14, 10, 7, 0] ++ [14, 10, 5, 0, 10, 5])).toOption.isSome = true := by decide +kernel
  cases h1 : unpackAll .empty [14, 10, 7, 0] with
  | error e =>
    rw [h1] at hp
    cases hp
  | ok r =>
    cases h2 : unpackAll .empty ([14, 10, 7, 0] ++ [14, 10, 5, 0, 10, 5]) with
    | error e =>
      rw [h2] at hpq
      cases hpq
    | ok r' => exact ⟨r.1, r.2, r'.1, r'.2, rfl, rfl, unpackAll_append h1 h2⟩

end RoundGame.Skynet.Seri
