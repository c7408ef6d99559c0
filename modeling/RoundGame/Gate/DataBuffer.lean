import Mathlib.Data.List.Nodup
import Mathlib.Data.List.Perm.Subperm
import RoundGame.Lib.Framing
import RoundGame.Lib.Heap

/-!
# The buffers of the gate

`databuffer.h` keeps the chunks that a connection has received as a linked list of nodes. The nodes of all connections
come from one pool, in blocks of `MESSAGEPOOL`, and go back to its free list when their chunk is read. Node `i` of the
`k`-th block has the address `MESSAGEPOOL * k + i`.

An operation is `none` where an assertion fails, or where the C code would follow a null pointer, leave a chunk or run
on for ever.
-/

namespace RoundGame.Gate

open Framing Heap Function

def MESSAGEPOOL : Nat := 1023

structure Message where
  buffer : Option Bytes
  size : Nat
  next : Option Nat

structure DataBuffer where
  header : Int
  offset : Nat
  size : Nat
  head : Option Nat
  tail : Option Nat

structure MessagePool where
  /-- The number of blocks. -/
  pool : Nat
  freelist : Option Nat
  mem : Nat → Message

def DataBuffer.init : DataBuffer := ⟨0, 0, 0, none, none⟩

def MessagePool.init : MessagePool := ⟨0, none, fun _ => ⟨none, 0, none⟩⟩

namespace DataBuffer

/-- `memcpy` of `sz` bytes from a place in the chunk. -/
def copy (m : Message) (offset sz : Nat) : Option Bytes :=
  m.buffer.bind fun b => if offset + sz ≤ b.length then some ((b.drop offset).take sz) else none

/-- `_return_message`. -/
def returnMessage (db : DataBuffer) (mp : MessagePool) : Option (DataBuffer × MessagePool) :=
  db.head.bind fun m =>
    let freed : MessagePool := { mp with mem := update mp.mem m ⟨none, 0, mp.freelist⟩, freelist := some m }
    match (mp.mem m).next with
    | none => if db.tail = some m then some ({ db with head := none, tail := none }, freed) else none
    | some n => some ({ db with head := some n }, freed)

/-- The loop of `databuffer_read`; every round but the last reads a chunk to its end. -/
def readLoop : Nat → DataBuffer → MessagePool → Nat → Option (Bytes × DataBuffer × MessagePool)
  | 0, _, _, _ => none
  | fuel + 1, db, mp, sz =>
    db.head.bind fun current =>
      let m := mp.mem current
      if m.size < db.offset then none
      else
        let bsz := m.size - db.offset
        if sz < bsz then
          (copy m db.offset sz).map fun out => (out, { db with offset := db.offset + sz }, mp)
        else if bsz = sz then
          (copy m db.offset sz).bind fun out =>
            (returnMessage { db with offset := 0 } mp).map fun (db', mp') => (out, db', mp')
        else
          (copy m db.offset bsz).bind fun out =>
            (returnMessage db mp).bind fun (db', mp') =>
              (readLoop fuel { db' with offset := 0 } mp' (sz - bsz)).map fun (out', db'', mp'') =>
                (out ++ out', db'', mp'')

/-- `databuffer_read`. A chunk is never empty, so `sz` rounds and one more are enough. -/
def read (db : DataBuffer) (mp : MessagePool) (sz : Nat) : Option (Bytes × DataBuffer × MessagePool) :=
  if db.size < sz then none else readLoop (sz + 1) { db with size := db.size - sz } mp sz

/-- A node from the free list, or the first one of a new block. -/
def newMessage (mp : MessagePool) : Nat × MessagePool :=
  match mp.freelist with
  | some m => (m, { mp with freelist := (mp.mem m).next })
  | none =>
    let temp := MESSAGEPOOL * mp.pool
    let fresh := fun a => if a + 1 < temp + MESSAGEPOOL then some (a + 1) else none
    (temp,
      { pool := mp.pool + 1
        freelist := some (temp + 1)
        mem := fun a => if temp ≤ a ∧ a < temp + MESSAGEPOOL then ⟨none, 0, fresh a⟩ else mp.mem a })

/-- `databuffer_push`. -/
def push (db : DataBuffer) (mp : MessagePool) (data : Bytes) : Option (DataBuffer × MessagePool) :=
  let (m, mp) := newMessage mp
  let mem := update mp.mem m ⟨some data, data.length, none⟩
  let size := db.size + data.length
  match db.head with
  | none =>
    if db.tail = none then some ({ db with size := size, head := some m, tail := some m }, { mp with mem := mem })
    else none
  | some _ =>
    db.tail.map fun t =>
      ({ db with size := size, tail := some m },
        { mp with mem := update mem t { mem t with next := some m } })

/-- The length in a header of 2 or 4 bytes, as an `int`. -/
def headerOf (plen : Bytes) : Int :=
  Int.bmod (plen.foldl (fun n b => n <<< 8 ||| b.toNat) 0 : Nat) (2 ^ 32)

/-- The size of the message whose header was read, -1 while it is incomplete. -/
def frameSize (db : DataBuffer) : Int := if (db.size : Int) < db.header then -1 else db.header

/-- `databuffer_readheader`. -/
def readheader (db : DataBuffer) (mp : MessagePool) (header_size : Nat) : Option (Int × DataBuffer × MessagePool) :=
  if db.header = 0 then
    if db.size < header_size then some (-1, db, mp)
    else
      (read db mp header_size).map fun (plen, db', mp') =>
        let db'' := { db' with header := headerOf plen }
        (frameSize db'', db'', mp')
  else some (frameSize db, db, mp)

/-- `databuffer_reset`. -/
def reset (db : DataBuffer) : DataBuffer := { db with header := 0 }

/-- The loop of `databuffer_clear`. A list is not longer than the nodes there are. -/
def clearLoop : Nat → DataBuffer → MessagePool → Option (DataBuffer × MessagePool)
  | 0, _, _ => none
  | fuel + 1, db, mp =>
    match db.head with
    | none => some (db, mp)
    | some _ => (returnMessage db mp).bind fun (db', mp') => clearLoop fuel db' mp'

/-- `databuffer_clear`. -/
def clear (db : DataBuffer) (mp : MessagePool) : Option (DataBuffer × MessagePool) :=
  (clearLoop (MESSAGEPOOL * mp.pool + 1) db mp).map fun (_, mp') => (init, mp')

end DataBuffer

/-! ## The bytes a buffer holds -/

def MessagePool.brk (mp : MessagePool) : Nat := MESSAGEPOOL * mp.pool

def MessagePool.next (mp : MessagePool) (a : Nat) : Option Nat := (mp.mem a).next

/-- The chunks of the nodes `ns`. -/
def MessagePool.bytes (mp : MessagePool) (ns : List Nat) : Bytes := ns.flatMap fun n => (mp.mem n).buffer.getD []

namespace DataBuffer

variable {mp mp' : MessagePool} {db db' : DataBuffer} {ns ns' fs fs' : List Nat}

/-- A node with the chunk `b`. -/
def Chunk (m : Message) (b : Bytes) : Prop := m.buffer = some b ∧ m.size = b.length ∧ b ≠ []

/-- The buffer has the nodes `ns`, each with a chunk, and the free list the nodes `fs`. -/
structure Links (mp : MessagePool) (db : DataBuffer) (ns fs : List Nat) : Prop where
  chain : Chain mp.next db.head ns
  tail : db.tail = ns.getLast?
  chunk : ∀ n ∈ ns, ∃ b, Chunk (mp.mem n) b
  free : Chain mp.next mp.freelist fs
  nodup : (ns ++ fs).Nodup
  lt : ∀ n ∈ ns ++ fs, n < mp.brk

/-- The bytes that were not read yet. -/
def unread (mp : MessagePool) (db : DataBuffer) (ns : List Nat) : Bytes := (mp.bytes ns).drop db.offset

/-- What is read of a chunk is less than the chunk. -/
def Fits (mp : MessagePool) (db : DataBuffer) (ns : List Nat) : Prop :=
  db.offset = 0 ∨ ∃ n, ns.head? = some n ∧ db.offset < (mp.mem n).size

/-- A change to the pool, from the nodes `own` to the nodes `own'`. -/
abbrev Moves (mp mp' : MessagePool) (own own' : List Nat) : Prop := Frame mp.brk mp.mem mp'.brk mp'.mem own own'

theorem bytes_congr (h : ∀ n ∈ ns, (mp'.mem n).buffer = (mp.mem n).buffer) : mp'.bytes ns = mp.bytes ns := by
  induction ns with
  | nil => rfl
  | cons n ns ih =>
    have hn := h n List.mem_cons_self
    have hns := ih fun k hk => h k (List.mem_cons_of_mem _ hk)
    unfold MessagePool.bytes at hns ⊢
    rw [List.flatMap_cons, List.flatMap_cons, hns, hn]

theorem bytes_cons {n : Nat} {b : Bytes} (hb : Chunk (mp.mem n) b) : mp.bytes (n :: ns) = b ++ mp.bytes ns := by
  unfold MessagePool.bytes
  rw [List.flatMap_cons, hb.1]
  rfl

theorem Fits.lt {n : Nat} {b : Bytes} (hfits : Fits mp db (n :: ns)) (hb : Chunk (mp.mem n) b) :
    db.offset < b.length := by
  rcases hfits with h0 | ⟨k, hk, hlt⟩
  · rw [h0]
    exact List.length_pos_of_ne_nil hb.2.2
  · cases hk
    rwa [hb.2.1] at hlt

theorem Fits.le (hfits : Fits mp db ns) (h : Links mp db ns fs) : db.offset ≤ (mp.bytes ns).length := by
  cases ns with
  | nil =>
    rcases hfits with h0 | ⟨n, hn, -⟩
    · omega
    · cases hn
  | cons n ns =>
    obtain ⟨b, hb⟩ := h.chunk n List.mem_cons_self
    have hlt := hfits.lt hb
    rw [bytes_cons hb, List.length_append]
    omega

/-- What a change to other nodes leaves alone. -/
theorem Links.frame (h : Links mp db ns fs) {own own' : List Nat} {di : DataBuffer} {ni : List Nat}
    (hm : Moves mp mp' own own') (hapart : ∀ n ∈ ns, n ∉ own) (hi : Links mp' di ni fs')
    (hsub : ∀ n ∈ fs', n ∈ own') :
    Links mp' db ns fs' ∧ ∀ n ∈ ns, mp'.mem n = mp.mem n := by
  have hlt : ∀ n ∈ ns, n < mp.brk := fun n hn => h.lt n (List.mem_append_left _ hn)
  have hsame : ∀ n ∈ ns, mp'.mem n = mp.mem n := fun n hn => hm.same n (hlt n hn) (hapart n hn)
  have hout : ∀ n ∈ ns, n ∉ fs' := fun n hn hmem => hm.apart hlt hapart n hn (hsub n hmem)
  refine ⟨⟨?_, h.tail, ?_, hi.free, ?_, ?_⟩, hsame⟩
  · apply h.chain.congr
    intro n hn
    unfold MessagePool.next
    rw [hsame n hn]
  · intro n hn
    rw [hsame n hn]
    exact h.chunk n hn
  · apply List.nodup_append'.2
    exact ⟨(List.nodup_append'.1 h.nodup).1, (List.nodup_append'.1 hi.nodup).2.1, fun n hn hmem => hout n hn hmem⟩
  · intro n hn
    rcases List.mem_append.1 hn with hn | hn
    · exact Nat.lt_of_lt_of_le (hlt n hn) hm.grows
    · exact hi.lt n (List.mem_append_right _ hn)

/-! ## Reading -/

/-- A node goes from the head of the buffer to the head of the free list. -/
theorem returnMessage_spec {n : Nat} (h : Links mp db (n :: ns) fs) :
    ∃ mp', returnMessage db mp = some ({ db with head := ns.head?, tail := ns.getLast? }, mp') ∧
      (∀ d : DataBuffer, d.head = ns.head? → d.tail = ns.getLast? → Links mp' d ns (n :: fs)) ∧
      mp'.bytes ns = mp.bytes ns ∧ (∀ k ∈ ns, mp'.mem k = mp.mem k) ∧
      Moves mp mp' (n :: ns ++ fs) (ns ++ n :: fs) := by
  obtain ⟨hhead, hchain⟩ := h.chain
  have hnodup := List.nodup_cons.1 h.nodup
  have hns : ∀ k ∈ ns, k ≠ n := by
    rintro k hk rfl
    exact hnodup.1 (List.mem_append_left _ hk)
  have hfs : ∀ k ∈ fs, k ≠ n := by
    rintro k hk rfl
    exact hnodup.1 (List.mem_append_right _ hk)
  let freed : MessagePool := { mp with mem := update mp.mem n ⟨none, 0, mp.freelist⟩, freelist := some n }
  have hother : ∀ k, k ≠ n → freed.mem k = mp.mem k := fun k hk => update_of_ne hk _ _
  have hsame : ∀ k ∈ ns, freed.mem k = mp.mem k := fun k hk => hother k (hns k hk)
  have hret : returnMessage db mp = some ({ db with head := ns.head?, tail := ns.getLast? }, freed) := by
    unfold returnMessage
    simp only [hhead, Option.bind_some]
    have hnext : (mp.mem n).next = ns.head? := hchain.head
    cases ns with
    | nil =>
      have htail : db.tail = some n := h.tail
      simp only [hnext, List.head?_nil, htail]
      rfl
    | cons k ks =>
      have htail : (k :: ks).getLast? = db.tail := by
        rw [h.tail, List.getLast?_cons_cons]
      simp only [hnext, List.head?_cons, htail]
      rfl
  refine ⟨freed, hret, ?_, bytes_congr fun k hk => congrArg Message.buffer (hsame k hk), hsame, ?_⟩
  · intro d hd ht
    refine ⟨?_, ht, ?_, ⟨rfl, ?_⟩, ?_, ?_⟩
    · rw [hd]
      have hcongr : Chain freed.next (mp.next n) ns := by
        apply hchain.congr
        intro k hk
        exact congrArg Message.next (hsame k hk)
      rw [hcongr.head] at hcongr
      exact hcongr
    · intro k hk
      rw [hsame k hk]
      exact h.chunk k (List.mem_cons_of_mem _ hk)
    · have hnext : freed.next n = mp.freelist := by
        show (update mp.mem n _ n).next = _
        rw [update_self]
      rw [hnext]
      apply h.free.congr
      intro k hk
      exact congrArg Message.next (hother k (hfs k hk))
    · exact List.nodup_middle.2 h.nodup
    · intro k hk
      apply h.lt k
      simp only [List.mem_append, List.mem_cons] at hk ⊢
      tauto
  · refine ⟨Nat.le_refl _, ?_, ?_⟩
    · intro a _ ha
      apply hother
      rintro rfl
      exact ha (by simp)
    · intro a ha
      refine Or.inl ?_
      simp only [List.mem_append, List.mem_cons] at ha ⊢
      tauto

/-- A read of `sz` bytes. -/
structure Reads (mp : MessagePool) (db : DataBuffer) (ns fs : List Nat) (sz : Nat) (mp' : MessagePool)
    (db' : DataBuffer) (ns' fs' : List Nat) : Prop where
  links : Links mp' db' ns' fs'
  fits : Fits mp' db' ns'
  unread : unread mp' db' ns' = (unread mp db ns).drop sz
  header : db'.header = db.header
  moves : Moves mp mp' (ns ++ fs) (ns' ++ fs')

theorem copy_chunk {m : Message} {b : Bytes} (hb : Chunk m b) {offset sz : Nat} (h : offset + sz ≤ b.length) :
    copy m offset sz = some ((b.drop offset).take sz) := by
  unfold copy
  rw [hb.1]
  exact if_pos h

/-- The loop reads what it is asked for, when it is there. -/
theorem readLoop_spec {fuel sz : Nat} (h : Links mp db ns fs) (hfits : Fits mp db ns) (hpos : 0 < sz)
    (hsz : sz ≤ (unread mp db ns).length) (hfuel : sz < fuel) :
    ∃ db' mp' ns' fs', readLoop fuel db mp sz = some ((unread mp db ns).take sz, db', mp') ∧
      Reads mp db ns fs sz mp' db' ns' fs' ∧ db'.size = db.size := by
  induction fuel generalizing mp db ns fs sz with
  | zero => omega
  | succ fuel ih =>
    cases ns with
    | nil =>
      have hnil : unread mp db [] = [] := by simp [unread, MessagePool.bytes]
      rw [hnil] at hsz
      exact absurd hsz (by simpa using Nat.ne_of_gt hpos)
    | cons n ns =>
      obtain ⟨b, hb⟩ := h.chunk n List.mem_cons_self
      obtain ⟨header, offset, size, head, tail⟩ := db
      obtain rfl : head = some n := h.chain.1
      have hoff : offset < b.length := hfits.lt hb
      have hunread : ∀ k ≤ b.length, (mp.bytes (n :: ns)).drop k = b.drop k ++ mp.bytes ns := by
        intro k hk
        rw [bytes_cons hb, List.drop_append_of_le_length hk]
      have hdrop : (b.drop offset).length = b.length - offset := List.length_drop ..
      have hnlt : ¬ b.length < offset := by omega
      unfold unread at hsz ⊢
      rw [hunread offset (Nat.le_of_lt hoff)] at hsz ⊢
      unfold readLoop
      simp only [Option.bind_some, hb.2.1, if_neg hnlt]
      rcases Nat.lt_trichotomy sz (b.length - offset) with hlt | heq | hgt
      · -- the chunk has more
        let db' : DataBuffer := ⟨header, offset + sz, size, some n, tail⟩
        have hlinks : Links mp db' (n :: ns) fs := ⟨h.chain, h.tail, h.chunk, h.free, h.nodup, h.lt⟩
        refine ⟨db', mp, n :: ns, fs, ?_, ⟨hlinks, ?_, ?_, rfl, Frame.refl⟩, rfl⟩
        · rw [if_pos hlt, copy_chunk hb (by omega), List.take_append_of_le_length (by omega)]
          rfl
        · refine Or.inr ⟨n, rfl, ?_⟩
          rw [hb.2.1]
          show offset + sz < b.length
          omega
        · show (mp.bytes (n :: ns)).drop (offset + sz) = ((mp.bytes (n :: ns)).drop offset).drop sz
          rw [List.drop_drop]
      · -- the chunk is read to its end, and this is all
        have h0 : Links mp ⟨header, 0, size, some n, tail⟩ (n :: ns) fs :=
          ⟨h.chain, h.tail, h.chunk, h.free, h.nodup, h.lt⟩
        obtain ⟨mp', hret, hlinks, hbytes', -, hmoves⟩ := returnMessage_spec h0
        let db' : DataBuffer := ⟨header, 0, size, ns.head?, ns.getLast?⟩
        refine ⟨db', mp', ns, n :: fs, ?_, ⟨hlinks db' rfl rfl, Or.inl rfl, ?_, rfl, hmoves⟩, rfl⟩
        · rw [if_neg (by omega), if_pos heq.symm, copy_chunk hb (by omega), Option.bind_some, hret,
            List.take_append_of_le_length (by omega)]
          rfl
        · show mp'.bytes ns = ((mp.bytes (n :: ns)).drop offset).drop sz
          rw [hunread offset (Nat.le_of_lt hoff), List.drop_left' (by omega), hbytes']
      · -- the chunk is read to its end, and the next one follows
        obtain ⟨mp₁, hret, hlinks, hbytes', -, hmoves⟩ := returnMessage_spec h
        let db₁ : DataBuffer := ⟨header, 0, size, ns.head?, ns.getLast?⟩
        have hunread₁ : unread mp₁ db₁ ns = mp.bytes ns := hbytes'
        have hsz₁ : sz - (b.length - offset) ≤ (unread mp₁ db₁ ns).length := by
          rw [hunread₁]
          rw [List.length_append, hdrop] at hsz
          omega
        obtain ⟨db', mp', ns', fs', hread, hr, hsize⟩ :=
          ih (hlinks db₁ rfl rfl) (Or.inl rfl) (by omega) hsz₁ (by omega)
        refine ⟨db', mp', ns', fs', ?_, ⟨hr.links, hr.fits, ?_, hr.header, hmoves.trans hr.moves⟩, hsize⟩
        · rw [if_neg (by omega), if_neg (by omega), copy_chunk hb (by omega), Option.bind_some, hret, Option.bind_some]
          show (readLoop fuel db₁ mp₁ (sz - (b.length - offset))).map _ = _
          have hall : (b.drop offset).take (b.length - offset) = b.drop offset :=
            List.take_of_length_le (Nat.le_of_eq hdrop)
          have hsplit : (b.drop offset ++ mp.bytes ns).take sz =
              b.drop offset ++ (mp.bytes ns).take (sz - (b.length - offset)) := by
            rw [List.take_append, hdrop, List.take_of_length_le (by omega)]
          rw [hread, hunread₁, hall, hsplit]
          rfl
        · show _ = ((mp.bytes (n :: ns)).drop offset).drop sz
          have hskip : (b.drop offset).drop sz = [] := List.drop_of_length_le (by omega)
          rw [hr.unread, hunread₁, hunread offset (Nat.le_of_lt hoff), List.drop_append, hskip, hdrop]
          rfl

/-- The buffer is in order, and its `size` right. -/
structure Holds (mp : MessagePool) (db : DataBuffer) (ns fs : List Nat) : Prop where
  links : Links mp db ns fs
  fits : Fits mp db ns
  size : db.size = (unread mp db ns).length

/-- `read` gives the bytes asked for, when there are as many. -/
theorem read_spec {sz : Nat} (h : Holds mp db ns fs) (hpos : 0 < sz) (hsz : sz ≤ db.size) :
    ∃ db' mp' ns' fs', read db mp sz = some ((unread mp db ns).take sz, db', mp') ∧ Holds mp' db' ns' fs' ∧
      unread mp' db' ns' = (unread mp db ns).drop sz ∧ db'.header = db.header ∧
      Moves mp mp' (ns ++ fs) (ns' ++ fs') := by
  let db₁ : DataBuffer := { db with size := db.size - sz }
  have hlinks : Links mp db₁ ns fs :=
    ⟨h.links.chain, h.links.tail, h.links.chunk, h.links.free, h.links.nodup, h.links.lt⟩
  have hsize : sz ≤ (unread mp db₁ ns).length := by
    rw [h.size] at hsz
    exact hsz
  obtain ⟨db', mp', ns', fs', hread, hr, hsame⟩ := readLoop_spec hlinks h.fits hpos hsize (Nat.lt_succ_self sz)
  refine ⟨db', mp', ns', fs', ?_, ⟨hr.links, hr.fits, ?_⟩, hr.unread, hr.header, hr.moves⟩
  · unfold read
    rw [if_neg (by omega)]
    exact hread
  · rw [hsame, hr.unread, List.length_drop]
    show db.size - sz = (unread mp db ns).length - sz
    rw [h.size]

/-! ## Pushing -/

/-- A new block: its first node is taken, the others are linked to one another. -/
theorem newBlock (h : mp.freelist = none) :
    ∃ mp', newMessage mp = (mp.brk, mp') ∧ mp'.pool = mp.pool + 1 ∧ mp'.freelist = some (mp.brk + 1) ∧
      (∀ i < MESSAGEPOOL,
        mp'.next (mp.brk + i) = if i + 1 < MESSAGEPOOL then some (mp.brk + (i + 1)) else none) ∧
      ∀ a < mp.brk, mp'.mem a = mp.mem a := by
  let fresh := fun a => if a + 1 < mp.brk + MESSAGEPOOL then some (a + 1) else none
  let mp' : MessagePool :=
    { pool := mp.pool + 1
      freelist := some (mp.brk + 1)
      mem := fun a => if mp.brk ≤ a ∧ a < mp.brk + MESSAGEPOOL then ⟨none, 0, fresh a⟩ else mp.mem a }
  refine ⟨mp', ?_, rfl, rfl, ?_, ?_⟩
  · unfold newMessage
    rw [h]
    rfl
  · intro i hi
    have hin : mp.brk ≤ mp.brk + i ∧ mp.brk + i < mp.brk + MESSAGEPOOL := by omega
    show (if mp.brk ≤ mp.brk + i ∧ mp.brk + i < mp.brk + MESSAGEPOOL then (⟨none, 0, fresh (mp.brk + i)⟩ : Message)
      else mp.mem (mp.brk + i)).next = _
    rw [if_pos hin]
    show (if mp.brk + i + 1 < mp.brk + MESSAGEPOOL then some (mp.brk + i + 1) else none) = _
    by_cases hlast : i + 1 < MESSAGEPOOL
    · rw [if_pos hlast, if_pos (by omega), Nat.add_assoc]
    · rw [if_neg hlast, if_neg (by omega)]
  · intro a ha
    exact if_neg fun hin => Nat.not_lt.2 hin.1 ha

/-- The node `m` was taken: it is neither in the buffer nor in what is left of the free list. -/
structure Taken (mp : MessagePool) (db : DataBuffer) (ns fs : List Nat) (m : Nat) (mp' : MessagePool)
    (fs' : List Nat) : Prop where
  links : Links mp' db ns fs'
  lt : m < mp'.brk
  buffer : m ∉ ns
  free : m ∉ fs'
  same : ∀ n ∈ ns, mp'.mem n = mp.mem n
  moves : Moves mp mp' (ns ++ fs) (m :: ns ++ fs')

theorem newMessage_freelist {m : Nat} (h : Links mp db ns (m :: fs)) :
    ∃ mp', newMessage mp = (m, mp') ∧ Taken mp db ns (m :: fs) m mp' fs := by
  have hfree : mp.freelist = some m := h.free.1
  have hnodup := List.nodup_cons.1 (List.nodup_middle.1 h.nodup)
  have hm : m ∉ ns ∧ m ∉ fs := by simpa using hnodup.1
  let mp' : MessagePool := { mp with freelist := (mp.mem m).next }
  refine ⟨mp', ?_, ?_, h.lt m (by simp), hm.1, hm.2, fun _ _ => rfl, ?_⟩
  · unfold newMessage
    rw [hfree]
  · refine ⟨h.chain, h.tail, h.chunk, h.free.2, hnodup.2, ?_⟩
    intro n hn
    apply h.lt n
    simp only [List.mem_append, List.mem_cons] at hn ⊢
    tauto
  · refine ⟨Nat.le_refl _, fun _ _ _ => rfl, ?_⟩
    intro a ha
    refine Or.inl ?_
    simp only [List.mem_append, List.mem_cons] at ha ⊢
    tauto

theorem newMessage_block (h : Links mp db ns []) :
    ∃ m mp' fs', newMessage mp = (m, mp') ∧ Taken mp db ns [] m mp' fs' := by
  have hfree : mp.freelist = none := h.free
  obtain ⟨mp', hnew, hpool, hlist, hnext, hsame⟩ := newBlock hfree
  have hbrk : mp'.brk = mp.brk + MESSAGEPOOL := by
    unfold MessagePool.brk
    rw [hpool, Nat.mul_succ]
  have hlt : ∀ n ∈ ns, n < mp.brk := fun n hn => h.lt n (List.mem_append_left _ hn)
  have hns : ∀ n ∈ ns, mp'.mem n = mp.mem n := fun n hn => hsame n (hlt n hn)
  have hrange : ∀ a ∈ List.range' (mp.brk + 1) (1021 + 1), mp.brk < a ∧ a < mp'.brk := by
    intro a ha
    obtain ⟨hge, hle⟩ := List.mem_range'_1.1 ha
    rw [hbrk]
    unfold MESSAGEPOOL
    omega
  have hfree' : Chain mp'.next mp'.freelist (List.range' (mp.brk + 1) (1021 + 1)) := by
    rw [hlist]
    apply chain_range'
    intro i hi
    have hi' := hnext (i + 1) (by unfold MESSAGEPOOL; omega)
    rw [Nat.add_assoc, Nat.add_comm 1, hi']
    unfold MESSAGEPOOL
    by_cases hlast : i < 1021
    · rw [if_pos (by omega), if_pos hlast]
      rfl
    · rw [if_neg (by omega), if_neg hlast]
  refine ⟨mp.brk, mp', _, hnew, ⟨?_, h.tail, ?_, hfree', ?_, ?_⟩, ?_, ?_, ?_, hns, ?_⟩
  · exact h.chain.congr fun n hn => congrArg Message.next (hns n hn)
  · intro n hn
    rw [hns n hn]
    exact h.chunk n hn
  · apply List.nodup_append'.2
    refine ⟨(List.nodup_append'.1 h.nodup).1, List.nodup_range' .., ?_⟩
    intro a ha ha'
    have hold := hlt a ha
    have hnew' := hrange a ha'
    omega
  · intro n hn
    rcases List.mem_append.1 hn with hn | hn
    · have hold := hlt n hn
      omega
    · exact (hrange n hn).2
  · rw [hbrk]
    exact Nat.lt_add_of_pos_right (by decide)
  · exact fun hmem => Nat.lt_irrefl _ (hlt _ hmem)
  · exact fun hmem => Nat.lt_irrefl _ (hrange _ hmem).1
  · refine ⟨by omega, fun a ha _ => hsame a ha, ?_⟩
    intro a ha
    rcases List.mem_append.1 ha with ha | ha
    · rcases List.mem_cons.1 ha with rfl | ha
      · exact Or.inr (Nat.le_refl _)
      · exact Or.inl (List.mem_append_left _ ha)
    · exact Or.inr (Nat.le_of_lt (hrange a ha).1)

theorem newMessage_spec (h : Links mp db ns fs) :
    ∃ m mp' fs', newMessage mp = (m, mp') ∧ Taken mp db ns fs m mp' fs' := by
  cases fs with
  | cons m fs =>
    obtain ⟨mp', hnew, htaken⟩ := newMessage_freelist h
    exact ⟨m, mp', fs, hnew, htaken⟩
  | nil => exact newMessage_block h

/-- The node `m` got the chunk `data`, and the last of the nodes `ns` a link to it. -/
structure Pushed (mp : MessagePool) (db : DataBuffer) (ns : List Nat) (m : Nat) (data : Bytes) (mp' : MessagePool)
    (db' : DataBuffer) : Prop where
  pool : mp'.brk = mp.brk ∧ mp'.freelist = mp.freelist
  new : mp'.mem m = ⟨some data, data.length, none⟩
  chunk : ∀ k, k ≠ m → (mp'.mem k).buffer = (mp.mem k).buffer ∧ (mp'.mem k).size = (mp.mem k).size
  next : ∀ k, k ≠ m → mp'.next k = if ns.getLast? = some k then some m else mp.next k
  same : ∀ k, k ≠ m → k ∉ ns → mp'.mem k = mp.mem k
  head : db'.head = (ns ++ [m]).head?
  tail : db'.tail = some m
  offset : db'.offset = db.offset
  size : db'.size = db.size + data.length
  header : db'.header = db.header

theorem push_eq {m : Nat} {mp₁ : MessagePool} (hnew : newMessage mp = (m, mp₁)) (hhead : db.head = ns.head?)
    (htail : db.tail = ns.getLast?) (hns : m ∉ ns) (data : Bytes) :
    ∃ db' mp', push db mp data = some (db', mp') ∧ Pushed mp₁ db ns m data mp' db' := by
  let mem := update mp₁.mem m ⟨some data, data.length, none⟩
  have hother : ∀ k, k ≠ m → mem k = mp₁.mem k := fun k hk => update_of_ne hk _ _
  cases hl : ns.getLast? with
  | none =>
    obtain rfl := List.getLast?_eq_none_iff.1 hl
    refine ⟨{ db with size := db.size + data.length, head := some m, tail := some m }, { mp₁ with mem := mem }, ?_, ?_⟩
    · unfold push
      simp only [hnew]
      rw [hhead, htail]
      rfl
    · refine ⟨⟨rfl, rfl⟩, update_self .., ?_, ?_, fun k hk _ => hother k hk, rfl, rfl, rfl, rfl, rfl⟩
      · intro k hk
        exact ⟨congrArg Message.buffer (hother k hk), congrArg Message.size (hother k hk)⟩
      · intro k hk
        rw [if_neg (by simp)]
        exact congrArg Message.next (hother k hk)
  | some t =>
    have ht : t ∈ ns := List.mem_of_getLast? hl
    have htm : t ≠ m := fun heq => hns (heq ▸ ht)
    let mem' := update mem t { mem t with next := some m }
    have hother' : ∀ k, k ≠ t → mem' k = mem k := fun k hk => update_of_ne hk _ _
    have hself : mem' t = { mem t with next := some m } := update_self ..
    refine ⟨{ db with size := db.size + data.length, tail := some m }, { mp₁ with mem := mem' }, ?_, ?_⟩
    · unfold push
      simp only [hnew]
      cases ns with
      | nil => cases ht
      | cons n ns =>
        rw [hhead, htail, hl]
        rfl
    · refine ⟨⟨rfl, rfl⟩, ?_, ?_, ?_, ?_, ?_, rfl, rfl, rfl, rfl⟩
      · show mem' m = _
        rw [hother' m (Ne.symm htm)]
        exact update_self ..
      · intro k hk
        show (mem' k).buffer = _ ∧ (mem' k).size = _
        by_cases hkt : k = t
        · rw [hkt, hself, hother t htm]
          exact ⟨rfl, rfl⟩
        · rw [hother' k hkt, hother k hk]
          exact ⟨rfl, rfl⟩
      · intro k hk
        show (mem' k).next = _
        by_cases hkt : k = t
        · rw [hkt, hself, if_pos hl]
        · rw [hother' k hkt, hother k hk, hl, if_neg (by simpa using Ne.symm hkt)]
          rfl
      · intro k hk hkns
        show mem' k = _
        rw [hother' k (fun heq => hkns (heq ▸ ht)), hother k hk]
      · show db.head = _
        rw [hhead, List.head?_append_of_ne_nil _ (List.ne_nil_of_mem ht)]

theorem Pushed.links {m : Nat} {data : Bytes} (hp : Pushed mp db ns m data mp' db') (h : Links mp db ns fs)
    (hm : m < mp.brk) (hns : m ∉ ns) (hfs : m ∉ fs) (hdata : data ≠ []) : Links mp' db' (ns ++ [m]) fs := by
  have hdisj := (List.nodup_append'.1 h.nodup).2.2
  have hne : ∀ k ∈ ns, k ≠ m := fun k hk heq => hns (heq ▸ hk)
  refine ⟨?_, by simpa using hp.tail, ?_, ?_, ?_, ?_⟩
  · rw [hp.head]
    apply h.chain.snoc (List.nodup_append'.1 h.nodup).1
    · exact congrArg Message.next hp.new
    · exact fun k hk => hp.next k (hne k hk)
  · intro k hk
    rcases List.mem_append.1 hk with hk | hk
    · obtain ⟨b, hb⟩ := h.chunk k hk
      have hk' := hp.chunk k (hne k hk)
      exact ⟨b, hk'.1.trans hb.1, hk'.2.trans hb.2.1, hb.2.2⟩
    · obtain rfl := List.mem_singleton.1 hk
      rw [hp.new]
      exact ⟨data, rfl, rfl, hdata⟩
  · rw [hp.pool.2]
    apply h.free.congr
    intro k hk
    have hkm : k ≠ m := fun heq => hfs (heq ▸ hk)
    have hlast : ns.getLast? ≠ some k := fun heq => hdisj (List.mem_of_getLast? heq) hk
    rw [hp.next k hkm, if_neg hlast]
  · rw [List.append_assoc]
    exact List.nodup_middle.2 (List.nodup_cons.2 ⟨by simp [hns, hfs], h.nodup⟩)
  · intro k hk
    rw [hp.pool.1]
    simp only [List.mem_append, List.mem_singleton] at hk
    rcases hk with (hk | rfl) | hk
    · exact h.lt k (List.mem_append_left _ hk)
    · exact hm
    · exact h.lt k (List.mem_append_right _ hk)

/-- `push` puts a chunk behind the bytes that are there. -/
theorem push_spec {data : Bytes} (h : Holds mp db ns fs) (hdata : data ≠ []) :
    ∃ db' mp' ns' fs', push db mp data = some (db', mp') ∧ Holds mp' db' ns' fs' ∧
      unread mp' db' ns' = unread mp db ns ++ data ∧ db'.header = db.header ∧
      Moves mp mp' (ns ++ fs) (ns' ++ fs') := by
  obtain ⟨m, mp₁, fs', hnew, hlinks, hlt, hns, hfs, hsame, hmoves⟩ := newMessage_spec h.links
  obtain ⟨db', mp', hpush, hp⟩ := push_eq hnew h.links.chain.head h.links.tail hns data
  have hne : ∀ k ∈ ns, k ≠ m := fun k hk heq => hns (heq ▸ hk)
  have hbytes' : mp'.bytes (ns ++ [m]) = mp.bytes ns ++ data := by
    have hpart : mp'.bytes ns = mp.bytes ns := by
      apply bytes_congr
      intro k hk
      rw [(hp.chunk k (hne k hk)).1, hsame k hk]
    rw [← hpart]
    unfold MessagePool.bytes
    rw [List.flatMap_append, List.flatMap_singleton, hp.new]
    rfl
  have hunread : unread mp' db' (ns ++ [m]) = unread mp db ns ++ data := by
    unfold unread
    rw [hbytes', hp.offset, List.drop_append_of_le_length (h.fits.le h.links)]
  refine ⟨db', mp', ns ++ [m], fs', hpush, ⟨hp.links hlinks hlt hns hfs hdata, ?_, ?_⟩, hunread, hp.header, ?_⟩
  · rcases h.fits with h0 | ⟨n, hn, hlt⟩
    · exact Or.inl (hp.offset.trans h0)
    · have hmem : n ∈ ns := List.mem_of_mem_head? hn
      refine Or.inr ⟨n, by rw [List.head?_append, hn]; rfl, ?_⟩
      rw [hp.offset, (hp.chunk n (hne n hmem)).2, hsame n hmem]
      exact hlt
  · rw [hp.size, hunread, List.length_append, h.size]
  · refine hmoves.trans ⟨Nat.le_of_eq hp.pool.1.symm, ?_, ?_⟩
    · intro a _ ha
      simp only [List.cons_append, List.mem_cons, List.mem_append, not_or] at ha
      exact hp.same a ha.1 ha.2.1
    · intro a ha
      refine Or.inl ?_
      simp only [List.cons_append, List.mem_cons, List.mem_append, List.not_mem_nil, or_false] at ha ⊢
      tauto

/-! ## Taking frames off -/

/-- The header, when it was read, and what follows it. -/
def pending (mp : MessagePool) (db : DataBuffer) (ns : List Nat) : Bytes :=
  (if db.header = 0 then [] else be16 db.header.toNat) ++ unread mp db ns

theorem headerOf_pair (a b : UInt8) : ∃ n : Nat, headerOf [a, b] = n ∧ n < 65536 ∧ be16 n = [a, b] := by
  have ha := a.toNat_lt
  have hb := b.toNat_lt
  refine ⟨a.toNat * 256 + b.toNat, ?_, by omega, be16_join a b⟩
  have hor : (0 <<< 8 ||| a.toNat) <<< 8 ||| b.toNat = a.toNat * 256 + b.toNat := by
    rw [← Nat.shiftLeft_add_eq_or_of_lt hb]
    simp [Nat.shiftLeft_eq]
  show Int.bmod ((0 <<< 8 ||| a.toNat) <<< 8 ||| b.toNat : Nat) (2 ^ 32) = _
  rw [hor, Int.bmod_eq_of_le] <;> omega

/-- A buffer of the gate: in order, with the header of a short frame. -/
structure Framed (mp : MessagePool) (db : DataBuffer) (ns fs : List Nat) : Prop extends Holds mp db ns fs where
  header : 0 ≤ db.header ∧ db.header < 65536

theorem Holds.framed (h : Holds mp db ns fs) {n : Int} (hn : 0 ≤ n ∧ n < 65536) :
    Framed mp { db with header := n } ns fs :=
  ⟨⟨⟨h.links.chain, h.links.tail, h.links.chunk, h.links.free, h.links.nodup, h.links.lt⟩, h.fits, h.size⟩, hn⟩

/-- With the header read, either the frame is incomplete or it is there. -/
theorem frameSize_spec (h : Framed mp db ns fs) :
    frameSize db = -1 ∧ unframe (be16 db.header.toNat ++ unread mp db ns) = none ∨
      ∃ p rest, unframe (be16 db.header.toNat ++ unread mp db ns) = some (p, rest) ∧ frameSize db = p.length ∧
        db.header = p.length ∧ unread mp db ns = p ++ rest := by
  obtain ⟨n, hn⟩ := Int.eq_ofNat_of_zero_le h.header.1
  have hlt : n < 65536 := by
    have := h.header.2
    omega
  unfold frameSize
  rw [hn, h.size, Int.toNat_natCast, unframe_be16 hlt]
  by_cases hshort : (unread mp db ns).length < n
  · exact Or.inl ⟨if_pos (by omega), if_pos hshort⟩
  · have hlen : ((unread mp db ns).take n).length = n := by
      rw [List.length_take]
      omega
    refine Or.inr ⟨(unread mp db ns).take n, (unread mp db ns).drop n, if_neg hshort, ?_, ?_, ?_⟩
    · rw [if_neg (by omega), hlen]
    · rw [hlen]
    · rw [List.take_append_drop]

theorem readheader_spec (h : Framed mp db ns fs) :
    ∃ size db' mp' ns' fs', readheader db mp 2 = some (size, db', mp') ∧ Framed mp' db' ns' fs' ∧
      Moves mp mp' (ns ++ fs) (ns' ++ fs') ∧
      (size = -1 ∧ unframe (pending mp db ns) = none ∧ pending mp' db' ns' = pending mp db ns ∨
        ∃ p rest, unframe (pending mp db ns) = some (p, rest) ∧ size = p.length ∧ db'.header = p.length ∧
          unread mp' db' ns' = p ++ rest) := by
  by_cases hheader : db.header = 0
  · have hpending : pending mp db ns = unread mp db ns := by
      unfold pending
      rw [if_pos hheader]
      rfl
    by_cases hshort : db.size < 2
    · refine ⟨-1, db, mp, ns, fs, ?_, h, Frame.refl, Or.inl ⟨rfl, ?_, rfl⟩⟩
      · unfold readheader
        rw [if_pos hheader, if_pos hshort]
      · rw [hpending]
        apply unframe_short
        rw [← h.size]
        exact hshort
    · have hlen : 2 ≤ (unread mp db ns).length := by
        rw [← h.size]
        omega
      obtain ⟨a, b, rest, hl⟩ : ∃ a b rest, unread mp db ns = a :: b :: rest := by
        match unread mp db ns, hlen with
        | a :: b :: rest, _ => exact ⟨a, b, rest, rfl⟩
      have htwo : 2 ≤ db.size := by omega
      obtain ⟨db', mp', ns', fs', hread, hh, hunread, -, hmoves⟩ := read_spec h.toHolds (by decide) htwo
      rw [hl] at hread hunread
      obtain ⟨n, hn, hlt, hpair⟩ := headerOf_pair a b
      let db'' : DataBuffer := { db' with header := n }
      have hheader'' : db''.header = n := rfl
      have hframed : Framed mp' db'' ns' fs' := hh.framed (by omega)
      have hbytes : be16 db''.header.toNat ++ unread mp' db'' ns' = pending mp db ns := by
        have hrest : unread mp' db'' ns' = rest := hunread
        rw [hheader'', Int.toNat_natCast, hpair, hrest, hpending, hl]
        rfl
      refine ⟨frameSize db'', db'', mp', ns', fs', ?_, hframed, hmoves, ?_⟩
      · have htake : (a :: b :: rest).take 2 = [a, b] := rfl
        unfold readheader
        rw [if_pos hheader, if_neg hshort, hread, htake]
        simp only [Option.map_some, hn]
        rfl
      · have hspec := frameSize_spec hframed
        rw [hbytes] at hspec
        rcases hspec with ⟨hm, hun⟩ | ⟨p, rest', hun, hs, hp, hr⟩
        · refine Or.inl ⟨hm, hun, ?_⟩
          have hne : db''.header ≠ 0 := by
            intro hzero
            unfold frameSize at hm
            split at hm <;> omega
          rw [← hbytes]
          unfold pending
          rw [if_neg hne]
        · exact Or.inr ⟨p, rest', hun, hs, hp, hr⟩
  · have hread : readheader db mp 2 = some (frameSize db, db, mp) := by
      unfold readheader
      rw [if_neg hheader]
    have hpending : pending mp db ns = be16 db.header.toNat ++ unread mp db ns := by
      unfold pending
      rw [if_neg hheader]
    refine ⟨frameSize db, db, mp, ns, fs, hread, h, Frame.refl, ?_⟩
    rw [hpending]
    rcases frameSize_spec h with ⟨hsize, hun⟩ | ⟨p, rest, hun, hsize, hp, hunread⟩
    · exact Or.inl ⟨hsize, hun, rfl⟩
    · exact Or.inr ⟨p, rest, hun, hsize, hp, hunread⟩

/-! ## Clearing -/

theorem clearLoop_spec {fuel : Nat} (h : Links mp db ns fs) (hfuel : ns.length < fuel) :
    ∃ db' mp' fs', clearLoop fuel db mp = some (db', mp') ∧ Links mp' init [] fs' ∧ Moves mp mp' (ns ++ fs) fs' := by
  induction ns generalizing mp db fs fuel with
  | nil =>
    cases fuel with
    | zero => cases hfuel
    | succ fuel =>
      refine ⟨db, mp, fs, ?_, ⟨rfl, rfl, h.chunk, h.free, h.nodup, h.lt⟩, Frame.refl⟩
      unfold clearLoop
      rw [h.chain.head]
      rfl
  | cons n ns ih =>
    cases fuel with
    | zero => cases hfuel
    | succ fuel =>
      obtain ⟨mp₁, hret, hlinks, -, -, hmoves⟩ := returnMessage_spec h
      let db₁ : DataBuffer := { db with head := ns.head?, tail := ns.getLast? }
      have hlen : ns.length < fuel := Nat.lt_of_succ_lt_succ hfuel
      obtain ⟨db', mp', fs', hclear, hlinks', hmoves'⟩ := ih (hlinks db₁ rfl rfl) hlen
      refine ⟨db', mp', fs', ?_, hlinks', hmoves.trans hmoves'⟩
      unfold clearLoop
      rw [h.chain.1]
      simp only [hret, Option.bind_some]
      exact hclear

/-- `clear` returns all nodes of a buffer. -/
theorem clear_spec (h : Links mp db ns fs) :
    ∃ mp' fs', clear db mp = some (init, mp') ∧ Links mp' init [] fs' ∧ Moves mp mp' (ns ++ fs) fs' := by
  have hsub : ns ⊆ List.range mp.brk := by
    intro n hn
    exact List.mem_range.2 (h.lt n (List.mem_append_left _ hn))
  have hlen : ns.length ≤ mp.brk := by
    have := (List.subperm_of_subset (List.nodup_append'.1 h.nodup).1 hsub).length_le
    rwa [List.length_range] at this
  obtain ⟨db', mp', fs', hclear, hlinks, hmoves⟩ := clearLoop_spec h (Nat.lt_succ_of_le hlen)
  refine ⟨mp', fs', ?_, hlinks, hmoves⟩
  unfold clear
  have hclear' : clearLoop (MESSAGEPOOL * mp.pool + 1) db mp = some (db', mp') := hclear
  rw [hclear']
  rfl

end DataBuffer

end RoundGame.Gate
