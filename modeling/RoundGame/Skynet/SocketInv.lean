import Mathlib.Algebra.Order.Group.Multiset
import Mathlib.Tactic.Abel
import RoundGame.Skynet.Socket

/-!
# The buffers of a socket

`Flow s`: the packages in the two lists of a socket are written one after the other, whole, and those of one priority in
the order in which they were taken. `Ok s`: what holds of every slot. What the socket thread does with a slot keeps it,
and every package stays in one place (`Leads`); nothing is lost unless the kernel reports an error, the other side
closes or a service shuts the socket down.
-/

namespace RoundGame.Skynet.SocketServer

open Outbox

namespace SocketType

/-- The event poll has sockets of these types. -/
def polls : SocketType → Bool
  | listen => true
  | connecting => true
  | connected => true
  | halfclose => true
  | bind => true
  | _ => false

/-- Sockets of these types may have packages. -/
def carries : SocketType → Bool
  | connecting => true
  | connected => true
  | halfclose => true
  | bind => true
  | _ => false

/-- Nothing but a reservation makes a slot reserved, and a slot that is free stays so until then. -/
structure Next (x y : SocketType) : Prop where
  reserve : y = .reserve ↔ x = .reserve
  invalid : x = .invalid → y = .invalid

variable {x y z : SocketType}

theorem Next.refl (x : SocketType) : Next x x := ⟨Iff.rfl, id⟩

theorem Next.trans (h : Next x y) (h' : Next y z) : Next x z := ⟨h'.reserve.trans h.reserve, h'.invalid ∘ h.invalid⟩

theorem Next.of_eq (h : y = x) : Next x y := h ▸ .refl x

theorem Next.closed (h : x ≠ .reserve) : Next x .invalid := ⟨iff_of_false (by cases ·) h, fun _ => rfl⟩

theorem Next.live (hr : x ≠ .reserve) (hi : x ≠ .invalid) (hr' : y ≠ .reserve) : Next x y :=
  ⟨iff_of_false hr' hr, fun h => absurd h hi⟩

end SocketType

open SocketType (Next)

variable {β : Type}

namespace Socket

def queue (s : Socket β) : List (WriteBuffer β) := s.high ++ s.low

def live (s : Socket β) : Prop := s.type ≠ .invalid ∧ s.type ≠ .reserve

/-- Where the packages for a slot are. -/
def all (s : Socket β) : Multiset (Package β) := s.refused + s.done + s.lost + items s.queue

structure Flow (s : Socket β) : Prop where
  low : ∀ x ∈ s.low, x.pos = 0 ∧ x.item.priority = .low
  high : ∀ x ∈ s.high.tail, x.item.priority = .high
  written : ∃ done, Written Package.bytes s.wire done s.queue ∧
    SameLanes Package.priority s.taken (done ++ items s.queue)
  size : s.wbSize = (pending Package.bytes s.queue).length

structure Ok (s : Socket β) : Prop where
  flow : s.live → s.Flow
  idle : s.type.carries = false → s.queue = []
  polled : s.polled = s.type.polls
  interest : s.bound = false → s.queue ≠ [] ∨ s.type = .halfclose → s.writing = true
  bind : s.type = .bind → s.bound = true

def Waits (s : Socket β) : Prop := s.type = .connecting → s.writing = true

/-- A step from `s` to `t` to which the packages `sent` came. -/
structure Leads (s : Socket β) (sent : Multiset (Package β)) (t : Socket β) : Prop where
  ok : t.Ok
  all : t.all = s.all + sent
  id : t.id = s.id
  type : Next s.type t.type

variable {s t : Socket β} {answers : List Answer} {wbs : List (WriteBuffer β)}

theorem ok_empty : (empty : Socket β).Ok := by
  refine ⟨fun h => absurd rfl h.1, fun _ => rfl, rfl, ?_, (by cases ·)⟩
  rintro - (h | h)
  · exact absurd rfl h
  · cases h

end Socket

theorem polls_of_carries {x : SocketType} (h : x.carries = true) : x.polls = true := by
  cases x <;> first | rfl | cases h

theorem sendListTcp_takes (answers : List Answer) (wbs : List (WriteBuffer β)) :
    Takes Package.bytes wbs (sendListTcp answers wbs).wire (sendListTcp answers wbs).done
      (sendListTcp answers wbs).list := by
  fun_induction sendListTcp answers wbs with
  | case1 answers => exact .stop _
  | case2 wb wbs => exact .stop _
  | case3 wbs answers h ih => exact ih
  | case4 wbs answers h => exact .stop _
  | case5 wbs answers h => exact .stop _
  | case6 n answers wb wbs sz hsz =>
    refine .part wb wbs sz ?_
    rw [Outbox.Part.rest, List.length_drop]
    exact Nat.min_le_right _ _
  | case7 n answers wb wbs sz hsz r ih => exact .whole ih

theorem sendListTcp_failed {answers : List Answer} {wbs : List (WriteBuffer β)} (h : ∀ a ∈ answers, a ≠ .error) :
    (sendListTcp answers wbs).failed = false ∧ ∀ a ∈ (sendListTcp answers wbs).answers, a ≠ .error := by
  fun_induction sendListTcp answers wbs with
  | case1 answers => exact ⟨rfl, h⟩
  | case2 wb wbs => exact ⟨rfl, h⟩
  | case3 wbs answers hne ih => exact ih fun a ha => h a (List.mem_cons_of_mem _ ha)
  | case4 wbs answers hne => exact ⟨rfl, fun a ha => h a (List.mem_cons_of_mem _ ha)⟩
  | case5 wbs answers hne => exact absurd rfl (h _ List.mem_cons_self)
  | case6 n answers wb wbs sz hsz => exact ⟨rfl, fun a ha => h a (List.mem_cons_of_mem _ ha)⟩
  | case7 n answers wb wbs sz hsz r ih => exact ih fun a ha => h a (List.mem_cons_of_mem _ ha)

namespace Socket

variable {s t : Socket β} {answers : List Answer} {a b : List (WriteBuffer β)} {w : List β} {d : List (Package β)}

theorem Flow.congr (h : s.Flow) (hhigh : t.high = s.high) (hlow : t.low = s.low) (hsize : t.wbSize = s.wbSize)
    (hwire : t.wire = s.wire) (htaken : t.taken = s.taken) : t.Flow := by
  have hq : t.queue = s.queue := by rw [queue, queue, hhigh, hlow]
  refine ⟨?_, ?_, ?_, ?_⟩
  · rw [hlow]
    exact h.low
  · rw [hhigh]
    exact h.high
  · rw [hq, hwire, htaken]
    exact h.written
  · rw [hq, hsize]
    exact h.size

/-- The books do not matter. -/
theorem Ok.same (h : s.Ok) (hhigh : t.high = s.high) (hlow : t.low = s.low) (hsize : t.wbSize = s.wbSize)
    (hwire : t.wire = s.wire) (htaken : t.taken = s.taken) (htype : t.type = s.type) (hpolled : t.polled = s.polled)
    (hwriting : t.writing = s.writing) (hbound : t.bound = s.bound) : t.Ok := by
  have hq : t.queue = s.queue := by rw [queue, queue, hhigh, hlow]
  refine ⟨fun hl => (h.flow ?_).congr hhigh hlow hsize hwire htaken, ?_, ?_, ?_, ?_⟩
  · rwa [live, htype] at hl
  · rw [htype, hq]
    exact h.idle
  · rw [htype, hpolled]
    exact h.polled
  · rw [htype, hq, hwriting, hbound]
    exact h.interest
  · rw [htype, hbound]
    exact h.bind

/-! ## Writes -/

theorem Flow.takes (h : s.Flow) (ht : Takes Package.bytes s.queue w d (a ++ b))
    (ha : ∀ x ∈ a.tail, x.item.priority = .high) (hb : ∀ x ∈ b, x.pos = 0 ∧ x.item.priority = .low) :
    Flow { s with high := a, low := b, wbSize := s.wbSize - w.length, wire := s.wire ++ w, done := s.done ++ d } := by
  obtain ⟨done, hw, hlanes⟩ := h.written
  refine ⟨hb, ha, ⟨done ++ d, hw.takes ht, ?_⟩, ?_⟩
  · rw [ht.items_eq, ← List.append_assoc] at hlanes
    exact hlanes
  · have hsize := h.size
    rw [ht.pending_eq, List.length_append, Int.natCast_add] at hsize
    show s.wbSize - w.length = ((pending Package.bytes (a ++ b)).length : Int)
    rw [hsize, add_sub_cancel_left]

theorem all_takes (ht : Takes Package.bytes s.queue w d (a ++ b)) :
    all { s with high := a, low := b, wbSize := s.wbSize - w.length, wire := s.wire ++ w, done := s.done ++ d } =
      s.all := by
  have hitems : (items s.queue : Multiset (Package β)) = d + items (a ++ b) := by rw [ht.items_eq, Multiset.coe_add]
  show (s.refused : Multiset (Package β)) + ↑(s.done ++ d) + s.lost + items (a ++ b) = _
  rw [all, hitems, ← Multiset.coe_add]
  abel

/-! ## Closing -/

theorem forceClose_isSome (hr : s.type ≠ .reserve) : s.forceClose.isSome := by
  rw [forceClose, if_neg hr]
  split <;> rfl

theorem forceClose_spec (hr : s.type ≠ .reserve) (hp : s.polled = s.type.polls) (hi : s.type = .invalid → s.queue = [])
    (h : s.forceClose = some t) :
    s.Leads 0 t ∧ t.type = .invalid ∧ (s.queue = [] → t.lost = s.lost) := by
  rw [forceClose, if_neg hr] at h
  split at h
  · rename_i htype
    cases h
    have hq := hi htype
    refine ⟨⟨⟨fun hl => absurd htype hl.1, fun _ => hq, hp, fun _ h => ?_, fun h => ?_⟩, (add_zero _).symm, rfl,
      .refl _⟩, htype, fun _ => rfl⟩
    · rw [hq, htype] at h
      simp at h
    · rw [htype] at h
      cases h
  · cases h
    refine ⟨⟨⟨fun hl => absurd rfl hl.1, fun _ => rfl, ?_, fun _ h => ?_, (by cases ·)⟩, ?_, rfl, .closed hr⟩, rfl,
      fun hq => ?_⟩
    · show decide _ = false
      rw [hp]
      cases s.type <;> simp [SocketType.polls]
    · rcases h with h | h
      · exact absurd rfl h
      · cases h
    · show (s.refused : Multiset (Package β)) + s.done + ↑(s.lost ++ items s.queue) + 0 = s.all + 0
      rw [all, ← Multiset.coe_add]
      abel
    · show s.lost ++ items s.queue = s.lost
      rw [hq, items_nil, List.append_nil]

/-! ## Sending the lists -/

/-- The slot after the loops of `send_list`, before it is closed when there was an error. -/
def sentList (s : Socket β) (p : Priority) (answers : List Answer) : Socket β :=
  let r := sendListTcp answers (s.lane p)
  { s.setLane p r.list with
    wbSize := s.wbSize - r.wire.length
    wire := s.wire ++ r.wire
    done := s.done ++ r.done }

theorem sentList_high (answers : List Answer) (h : s.Ok) (hl : s.live) :
    (s.sentList .high answers).Flow ∧ (s.sentList .high answers).all = s.all := by
  have hflow := h.flow hl
  have ht := (sendListTcp_takes answers s.high).append s.low
  refine ⟨hflow.takes ht ?_ hflow.low, all_takes ht⟩
  exact (sendListTcp_takes answers s.high).forall_tail hflow.high

/-- The list of low priority is written while the other one is empty; the first package may be moved there. -/
theorem sentList_low (h : s.Ok) (hl : s.live) (hhigh : s.high = []) (hab : a ++ b = (sendListTcp answers s.low).list)
    (ha : a.tail = []) (hb : ∀ x ∈ b, x.pos = 0) :
    ({ s.sentList .low answers with high := a, low := b }).Flow ∧
      ({ s.sentList .low answers with high := a, low := b }).all = s.all := by
  have hflow := h.flow hl
  have ht : Takes Package.bytes s.queue (sendListTcp answers s.low).wire (sendListTcp answers s.low).done (a ++ b) := by
    rw [queue, hhigh, hab]
    exact sendListTcp_takes answers s.low
  have hprio : ∀ x ∈ b, x.item.priority = .low := by
    intro x hx
    have hmem : x.item ∈ items s.low := by
      rw [(sendListTcp_takes answers s.low).items_eq, ← hab, items_append]
      exact List.mem_append_right _ (List.mem_append_right _ (List.mem_map_of_mem hx))
    obtain ⟨y, hy, hitem⟩ := List.mem_map.1 hmem
    rw [← hitem]
    exact (hflow.low y hy).2
  refine ⟨hflow.takes ht ?_ fun x hx => ⟨hb x hx, hprio x hx⟩, all_takes ht⟩
  rw [ha]
  exact fun x hx => (List.not_mem_nil hx).elim

theorem sentList_all (p : Priority) (hhigh : p = .low → s.high = []) : (s.sentList p answers).all = s.all := by
  cases p with
  | high => exact all_takes ((sendListTcp_takes answers s.high).append s.low)
  | low =>
    have ht : Takes Package.bytes s.queue (sendListTcp answers s.low).wire (sendListTcp answers s.low).done
        (s.high ++ (sendListTcp answers s.low).list) := by
      rw [queue, hhigh rfl]
      exact sendListTcp_takes answers s.low
    exact all_takes ht

@[simp] theorem type_sentList (p : Priority) : (s.sentList p answers).type = s.type := by cases p <;> rfl

@[simp] theorem polled_sentList (p : Priority) : (s.sentList p answers).polled = s.polled := by cases p <;> rfl

@[simp] theorem id_sentList (p : Priority) : (s.sentList p answers).id = s.id := by cases p <;> rfl

theorem sentList_queue_nil (hq : s.queue = []) : (s.sentList .high answers).queue = [] := by
  obtain ⟨hhigh, hlow⟩ := List.append_eq_nil_iff.1 hq
  have hitems := (sendListTcp_takes answers s.high).items_eq
  rw [hhigh, items_nil, eq_comm, List.append_eq_nil_iff] at hitems
  show (sendListTcp answers s.high).list ++ s.low = []
  rw [hlow, hhigh, List.map_eq_nil_iff.1 hitems.2]
  rfl

/-- `send_list` closes the socket when there is an error. -/
theorem sendList_cases (answers : List Answer) (h : s.Ok) (hl : s.live) (p : Priority)
    (hhigh : p = .low → s.high = []) :
    (∃ t rest, s.sendList p answers = some (t, true, rest) ∧ s.Leads 0 t ∧ t.type = .invalid ∧
      ∃ a ∈ answers, a = .error) ∨
    ∃ rest, s.sendList p answers = some (s.sentList p answers, false, rest) ∧
      ((∀ a ∈ answers, a ≠ .error) → ∀ a ∈ rest, a ≠ .error) := by
  have heq : s.sendList p answers =
      if (sendListTcp answers (s.lane p)).failed then
        (s.sentList p answers).forceClose.map fun t => (t, true, (sendListTcp answers (s.lane p)).answers)
      else some (s.sentList p answers, false, (sendListTcp answers (s.lane p)).answers) := rfl
  rw [heq]
  cases hf : (sendListTcp answers (s.lane p)).failed with
  | false => exact .inr ⟨_, rfl, fun hne => (sendListTcp_failed hne).2⟩
  | true =>
    have hr : (s.sentList p answers).type ≠ .reserve := by
      rw [type_sentList]
      exact hl.2
    obtain ⟨t, ht⟩ := Option.isSome_iff_exists.1 (forceClose_isSome hr)
    have hpolled : (s.sentList p answers).polled = (s.sentList p answers).type.polls := by
      rw [polled_sentList, type_sentList]
      exact h.polled
    obtain ⟨hleads, htype, -⟩ := forceClose_spec hr hpolled (fun hi => absurd ((type_sentList p).symm.trans hi) hl.1) ht
    refine .inl ⟨t, _, by rw [if_pos rfl, ht]; rfl, ⟨hleads.ok, ?_, ?_, ?_⟩, htype, ?_⟩
    · rw [hleads.all, sentList_all p hhigh]
    · rw [hleads.id, id_sentList]
    · rw [← type_sentList p]
      exact hleads.type
    · by_contra hnone
      rw [(sendListTcp_failed fun a ha hea => hnone ⟨a, ha, hea⟩).1] at hf
      cases hf

theorem listUncomplete_false {wbs : List (WriteBuffer β)} (h : listUncomplete wbs = false) :
    ∀ x ∈ wbs.head?, x.pos = 0 ∧ x.item.userobject = false := by
  cases wbs with
  | nil => simp
  | cons wb wbs => simpa [listUncomplete] using h

/-- A slot whose lists were written in part, of the same type as before. -/
theorem Ok.written (h : s.Ok) (hflow : t.Flow) (htype : t.type = s.type) (hpolled : t.polled = s.polled)
    (hbound : t.bound = s.bound) (hwriting : t.writing = s.writing) (hq : s.queue ≠ [] ∨ t.queue = []) : t.Ok := by
  refine ⟨fun _ => hflow, fun hc => ?_, ?_, fun hb hi => ?_, fun hbind => ?_⟩
  · rw [htype] at hc
    exact hq.resolve_left fun hne => hne (h.idle hc)
  · rw [hpolled, htype]
    exact h.polled
  · rw [hwriting]
    rw [hbound] at hb
    rw [htype] at hi
    refine h.interest hb (hi.imp_left fun hne => ?_)
    exact hq.resolve_right hne
  · rw [htype] at hbind
    rw [hbound]
    exact h.bind hbind

theorem sentHigh_ok (answers : List Answer) (h : s.Ok) (hl : s.live) : (s.sentList .high answers).Ok := by
  refine h.written (sentList_high answers h hl).1 rfl rfl rfl rfl ?_
  by_cases hq : s.queue = []
  · exact .inr (sentList_queue_nil hq)
  · exact .inl hq

/-- The list of low priority, when the other one is empty. -/
theorem sendLow_spec {c : Bool} (h : s.Ok) (hl : s.live) (hhigh : s.high = []) (hlow : s.low ≠ [])
    (hs : (match s.sendList .low answers with
      | none => none
      | some (s, true, _) => some (s, true)
      | some (s, false, _) =>
        if listUncomplete s.low then s.raiseUncomplete.map fun s => (s, false) else some (s, false)) = some (t, c)) :
    s.Leads 0 t ∧ (c = true → t.type = .invalid) ∧ (c = false → t.type = s.type) ∧
      ((∀ a ∈ answers, a ≠ .error) → t.lost = s.lost) := by
  have hq : s.queue ≠ [] := by
    rw [queue, hhigh, List.nil_append]
    exact hlow
  rcases sendList_cases answers h hl .low (fun _ => hhigh) with
    ⟨t', rest, heq, hleads, htype, a, ha, hea⟩ | ⟨rest, heq, -⟩
  · rw [heq] at hs
    cases hs
    exact ⟨hleads, fun _ => htype, (by cases ·), fun hne => absurd hea (hne a ha)⟩
  rw [heq] at hs
  have hlist : (s.sentList .low answers).low = (sendListTcp answers s.low).list := rfl
  have hempty : (s.sentList .low answers).high = [] := hhigh
  have hself : s.sentList .low answers =
      { s.sentList .low answers with high := [], low := (sendListTcp answers s.low).list } := by
    rw [← hempty]
    rfl
  dsimp only at hs
  -- what is left is the list of low priority, or its first package moves to the other list
  obtain ⟨a, b, hab, ha, hb, ht, hc⟩ : ∃ a b, a ++ b = (sendListTcp answers s.low).list ∧ a.tail = [] ∧
      (∀ x ∈ b, x.pos = 0) ∧ t = { s.sentList .low answers with high := a, low := b } ∧ c = false := by
    have hfresh := (sendListTcp_takes answers s.low).forall_tail (P := fun x => x.pos = 0)
      fun x hx => ((h.flow hl).low x (List.mem_of_mem_tail hx)).1
    cases hwbs : (sendListTcp answers s.low).list with
    | nil =>
      rw [hlist, hwbs] at hs
      cases hs
      rw [hwbs] at hself
      exact ⟨[], [], rfl, rfl, by simp, hself, rfl⟩
    | cons wb wbs =>
      rw [hwbs, List.tail_cons] at hfresh
      cases hun : listUncomplete (s.sentList .low answers).low with
      | false =>
        rw [hun] at hs
        cases hs
        rw [hlist, hwbs] at hun
        rw [hwbs] at hself
        refine ⟨[], wb :: wbs, rfl, rfl, fun x hx => ?_, hself, rfl⟩
        rcases List.mem_cons.1 hx with rfl | hx
        · exact (listUncomplete_false hun x rfl).1
        · exact hfresh x hx
      | true =>
        rw [hun, if_pos rfl, raiseUncomplete, hlist, hempty, hwbs] at hs
        cases hs
        exact ⟨[wb], wbs, rfl, rfl, hfresh, rfl, rfl⟩
  obtain ⟨hflow, hall⟩ := sentList_low h hl hhigh hab ha hb
  rw [← ht] at hflow hall
  have hkeeps : t.type = s.type ∧ t.polled = s.polled ∧ t.bound = s.bound ∧ t.writing = s.writing ∧ t.id = s.id ∧
      t.lost = s.lost := by
    rw [ht]
    exact ⟨rfl, rfl, rfl, rfl, rfl, rfl⟩
  obtain ⟨htype, hpolled, hbound, hwriting, hid, hlost⟩ := hkeeps
  have hok := h.written hflow htype hpolled hbound hwriting (.inl hq)
  refine ⟨⟨hok, by rw [hall, add_zero], hid, .of_eq htype⟩, fun hc' => ?_, fun _ => htype, fun _ => hlost⟩
  rw [hc] at hc'
  cases hc'

theorem sendBuffer_spec {c : Bool} (h : s.Ok) (hl : s.live) (hs : s.sendBuffer answers = some (t, c)) :
    s.Leads 0 t ∧ (c = true → t.type = .invalid) ∧ (c = false → t.type = s.type) ∧
      ((∀ a ∈ answers, a ≠ .error) → t.lost = s.lost) := by
  rw [sendBuffer] at hs
  split at hs
  · cases hs
  rcases sendList_cases answers h hl .high (fun h => by cases h) with
    ⟨t', rest, heq, hleads, htype, a, ha, hea⟩ | ⟨rest, heq, hrest⟩
  · rw [heq] at hs
    cases hs
    exact ⟨hleads, fun _ => htype, (by cases ·), fun hne => absurd hea (hne a ha)⟩
  rw [heq] at hs
  -- the first list is written
  obtain ⟨hflow, hall⟩ := sentList_high answers h hl
  have hok := sentHigh_ok answers h hl
  generalize hu : s.sentList .high answers = u at hs hflow hall hok
  have hid : u.id = s.id := by rw [← hu]; rfl
  have htype : u.type = s.type := by rw [← hu]; rfl
  have hlost : u.lost = s.lost := by rw [← hu]; rfl
  have hlive : u.live := by rw [live, htype]; exact hl
  have hnext : Next s.type u.type := .of_eq htype
  dsimp only at hs
  by_cases hhigh : u.high = []
  · rw [if_neg (not_not.2 hhigh)] at hs
    by_cases hlow : u.low = []
    · -- both lists are empty
      have hq : u.queue = [] := by rw [queue, hhigh, hlow, List.nil_append]
      rw [if_neg (not_not.2 hlow)] at hs
      split at hs
      · obtain ⟨t', ht, heq⟩ := Option.map_eq_some_iff.1 hs
        cases heq
        obtain ⟨hleads, hinv, hkept⟩ := forceClose_spec (s := { u with writing := false }) hlive.2 hok.polled
          (fun _ => hq) ht
        refine ⟨⟨hleads.ok, ?_, hleads.id.trans hid, hnext.trans hleads.type⟩, fun _ => hinv, (by cases ·), fun _ => ?_⟩
        · rw [hleads.all, ← hall]
          rfl
        · rw [hkept hq, ← hlost]
      · rename_i hhalf
        cases hs
        refine ⟨⟨⟨fun _ => hflow.congr rfl rfl rfl rfl rfl, hok.idle, hok.polled, fun _ h => ?_, hok.bind⟩, ?_, hid,
          hnext⟩, (by cases ·), fun _ => htype, fun _ => hlost⟩
        · rcases h with h | h
          · exact absurd hq h
          · exact absurd h hhalf
        · rw [add_zero, ← hall]
          rfl
    · rw [if_pos hlow] at hs
      obtain ⟨hleads, hinv, htype', hkept⟩ := sendLow_spec hok hlive hhigh hlow hs
      refine ⟨⟨hleads.ok, ?_, hleads.id.trans hid, hnext.trans hleads.type⟩, hinv,
        fun hc => (htype' hc).trans htype, fun hne => ?_⟩
      · rw [hleads.all, hall]
      · rw [hkept (hrest hne), hlost]
  · rw [if_pos hhigh] at hs
    cases hs
    exact ⟨⟨hok, by rw [hall, add_zero], hid, hnext⟩, (by cases ·), fun _ => htype, fun _ => hlost⟩

/-! ## Packages -/

theorem all_appendSendbuffer (q : Priority) (p : Package β) (n : Nat) :
    (s.appendSendbuffer q p n).all = s.all + {p} := by
  have hitems : (items (s.appendSendbuffer q p n).queue : Multiset (Package β)) = items s.queue + {p} := by
    rw [← Multiset.coe_singleton, Multiset.coe_add, Multiset.coe_eq_coe]
    cases q with
    | low =>
      show (items (s.high ++ (s.low ++ [⟨p, n⟩]))).Perm _
      rw [← List.append_assoc, items_append]
      rfl
    | high =>
      show (items (s.high ++ [⟨p, n⟩] ++ s.low)).Perm _
      rw [queue, items_append, items_append, items_append, List.append_assoc, List.append_assoc]
      exact List.Perm.append_left _ List.perm_append_comm
  rw [all, hitems, all, ← add_assoc]
  cases q <;> rfl

@[simp] theorem type_appendSendbuffer (q : Priority) (p : Package β) (n : Nat) :
    (s.appendSendbuffer q p n).type = s.type := by cases q <;> rfl

@[simp] theorem polled_appendSendbuffer (q : Priority) (p : Package β) (n : Nat) :
    (s.appendSendbuffer q p n).polled = s.polled := by cases q <;> rfl

@[simp] theorem writing_appendSendbuffer (q : Priority) (p : Package β) (n : Nat) :
    (s.appendSendbuffer q p n).writing = s.writing := by cases q <;> rfl

@[simp] theorem bound_appendSendbuffer (q : Priority) (p : Package β) (n : Nat) :
    (s.appendSendbuffer q p n).bound = s.bound := by cases q <;> rfl

@[simp] theorem id_appendSendbuffer (q : Priority) (p : Package β) (n : Nat) :
    (s.appendSendbuffer q p n).id = s.id := by cases q <;> rfl

@[simp] theorem lost_appendSendbuffer (q : Priority) (p : Package β) (n : Nat) :
    (s.appendSendbuffer q p n).lost = s.lost := by cases q <;> rfl

theorem flow_append (h : s.Flow) {p : Package β} :
    Flow (appendSendbuffer { s with taken := s.taken ++ [p] } p.priority p 0) := by
  obtain ⟨done, hw, hlanes⟩ := h.written
  have hsz : (WriteBuffer.sz (⟨p, 0⟩ : WriteBuffer β) : Int) =
      ((⟨p, 0⟩ : WriteBuffer β).rest Package.bytes).length := by
    rw [Outbox.Part.rest, List.length_drop]
    rfl
  cases hp : p.priority with
  | low =>
    refine ⟨fun x hx => ?_, h.high, ⟨done, ?_, ?_⟩, ?_⟩
    · rcases List.mem_append.1 hx with hx | hx
      · exact h.low x hx
      · rw [List.mem_singleton.1 hx]
        exact ⟨rfl, hp⟩
    · show Written Package.bytes s.wire done (s.high ++ (s.low ++ [⟨p, 0⟩]))
      rw [← List.append_assoc]
      rw [← List.append_nil s.queue] at hw
      exact hw.insert rfl fun _ => by simp
    · show SameLanes Package.priority (s.taken ++ [p]) (done ++ items (s.high ++ (s.low ++ [⟨p, 0⟩])))
      rw [← List.append_assoc, items_append, ← List.append_assoc]
      exact hlanes.concat p
    · show s.wbSize + _ = ((pending Package.bytes (s.high ++ (s.low ++ [⟨p, 0⟩]))).length : Int)
      rw [← List.append_assoc, pending_append, List.length_append, h.size, hsz]
      simp [queue]
  | high =>
    refine ⟨h.low, fun x hx => ?_, ⟨done, ?_, ?_⟩, ?_⟩
    · have hx' : x ∈ (s.high ++ ([⟨p, 0⟩] : List (WriteBuffer β))).tail := hx
      cases hhigh : s.high with
      | nil =>
        rw [hhigh] at hx'
        cases hx'
      | cons y l =>
        rw [hhigh, List.cons_append, List.tail_cons] at hx'
        rcases List.mem_append.1 hx' with hx' | hx'
        · exact h.high x (by rw [hhigh]; exact hx')
        · rw [List.mem_singleton.1 hx']
          exact hp
    · show Written Package.bytes s.wire done (s.high ++ [⟨p, 0⟩] ++ s.low)
      rw [List.append_assoc]
      exact hw.insert rfl fun _ x hx => (h.low x hx).1
    · show SameLanes Package.priority (s.taken ++ [p]) (done ++ items (s.high ++ [⟨p, 0⟩] ++ s.low))
      have hlanes' : SameLanes Package.priority s.taken (done ++ items s.high ++ items s.low) := by
        rw [List.append_assoc, ← items_append]
        exact hlanes
      have hins := sameLanes_insert (y := p) hlanes' (fun z hz => by
        obtain ⟨x, hx, rfl⟩ := List.mem_map.1 hz
        rw [(h.low x hx).2, hp]
        exact (by cases ·))
      rw [List.append_assoc] at hins
      rw [List.append_assoc, items_append]
      exact hins
    · show s.wbSize + _ = ((pending Package.bytes (s.high ++ [⟨p, 0⟩] ++ s.low)).length : Int)
      rw [h.size, hsz, queue]
      simp
      omega

/-- A package that is written without having been in a list. -/
theorem written_direct (h : s.Flow) (hq : s.queue = []) (p : Package β) :
    ∃ done, Written Package.bytes s.wire done [⟨p, 0⟩] ∧ SameLanes Package.priority (s.taken ++ [p]) (done ++ [p]) := by
  obtain ⟨done, hw, hlanes⟩ := h.written
  rw [hq] at hw hlanes
  refine ⟨done, Written.insert (q := []) (r := []) hw rfl (by simp), ?_⟩
  rw [items_nil, List.append_nil] at hlanes
  exact hlanes.concat p

theorem flow_whole (h : s.Flow) (hq : s.queue = []) {p : Package β} :
    Flow { s with taken := s.taken ++ [p], wire := s.wire ++ p.bytes, done := s.done ++ [p] } := by
  obtain ⟨done, hw, hlanes⟩ := written_direct h hq p
  refine ⟨h.low, h.high, ⟨done ++ [p], ?_, ?_⟩, h.size⟩
  · have hwhole := hw.takes (.whole (.stop []))
    rw [rest_of_fresh rfl, List.append_nil] at hwhole
    rw [queue] at hq
    rw [queue, hq]
    exact hwhole
  · rw [queue] at hq
    rw [queue, hq, items_nil, List.append_nil]
    exact hlanes

theorem flow_part (h : s.Flow) (hq : s.queue = []) {p : Package β} {n : Nat} (hn : n ≤ p.bytes.length) :
    Flow (appendSendbuffer { s with taken := s.taken ++ [p], wire := s.wire ++ p.bytes.take n } .high p n) := by
  obtain ⟨done, hw, hlanes⟩ := written_direct h hq p
  obtain ⟨hhigh, hlow⟩ := List.append_eq_nil_iff.1 hq
  have hqueue : s.high ++ ([⟨p, n⟩] : List (WriteBuffer β)) ++ s.low = [⟨p, n⟩] := by rw [hhigh, hlow]; rfl
  refine ⟨h.low, fun x hx => ?_, ⟨done, ?_, ?_⟩, ?_⟩
  · have hx' : x ∈ (s.high ++ ([⟨p, n⟩] : List (WriteBuffer β))).tail := hx
    rw [hhigh] at hx'
    cases hx'
  · show Written Package.bytes (s.wire ++ p.bytes.take n) done (s.high ++ [⟨p, n⟩] ++ s.low)
    have hpart := hw.takes (.part ⟨p, 0⟩ [] n (by rwa [rest_of_fresh rfl]))
    rw [rest_of_fresh rfl, Nat.zero_add, List.append_nil] at hpart
    rw [hqueue]
    exact hpart
  · show SameLanes Package.priority (s.taken ++ [p]) (done ++ items (s.high ++ [⟨p, n⟩] ++ s.low))
    rw [hqueue]
    exact hlanes
  · show s.wbSize + _ = ((pending Package.bytes (s.high ++ [⟨p, n⟩] ++ s.low)).length : Int)
    rw [h.size, hq, hqueue]
    simp [WriteBuffer.sz, Outbox.Part.rest]

/-- A package of which `n` bytes are written at once. -/
theorem sendDirect_spec {p : Package β} {n : Nat} {rep : Option (Report β)} (h : s.Ok) (hq : s.queue = [])
    (htype : s.type = .connected) (hn : n ≤ p.bytes.length)
    (hs : (if n = p.bytes.length then
        some ({ s with taken := s.taken ++ [p], wire := s.wire ++ p.bytes.take n, done := s.done ++ [p] }, none)
      else some ({ appendSendbuffer { s with taken := s.taken ++ [p], wire := s.wire ++ p.bytes.take n } .high p n with
        writing := true }, none)) = some (t, rep)) :
    s.Leads {p} t ∧ t.Waits ∧ t.lost = s.lost := by
  have hflow := h.flow (by rw [live, htype]; exact ⟨(by cases ·), (by cases ·)⟩)
  split at hs
  · rename_i hwhole
    cases hs
    have htake : p.bytes.take n = p.bytes := by rw [hwhole, List.take_length]
    refine ⟨⟨⟨fun _ => ?_, h.idle, h.polled, h.interest, h.bind⟩, ?_, rfl, .refl _⟩, ?_, rfl⟩
    · rw [htake]
      exact flow_whole hflow hq
    · show (s.refused : Multiset (Package β)) + ↑(s.done ++ [p]) + s.lost + items s.queue = _
      rw [all, ← Multiset.coe_add, Multiset.coe_singleton]
      abel
    · rw [Waits, htype]
      exact (by cases ·)
  · cases hs
    refine ⟨⟨⟨fun _ => (flow_part hflow hq hn).congr rfl rfl rfl rfl rfl, ?_, h.polled, fun _ _ => rfl, h.bind⟩, ?_,
      rfl, .refl _⟩, fun _ => rfl, rfl⟩
    · show s.type.carries = false → _
      rw [htype]
      exact (by cases ·)
    · exact all_appendSendbuffer (s := { s with taken := s.taken ++ [p], wire := s.wire ++ p.bytes.take n }) .high p n

theorem refuse_leads (h : s.Ok) (p : Package β) : s.Leads {p} (s.refuse p) := by
  refine ⟨h.same rfl rfl rfl rfl rfl rfl rfl rfl rfl, ?_, rfl, .refl _⟩
  show ((s.refused ++ [p] : List (Package β)) : Multiset (Package β)) + s.done + s.lost + items s.queue = _
  rw [all, ← Multiset.coe_add, Multiset.coe_singleton]
  abel

theorem sendSocket_spec {id : Nat} {p : Package β} {answer : Answer} {rep : Option (Report β)} (h : s.Ok) (hw : s.Waits)
    (hr : s.type = .reserve → s.id ≠ id) (hs : s.sendSocket id p answer = some (t, rep)) :
    s.Leads {p} t ∧ t.Waits ∧ (answer ≠ .error → t.lost = s.lost) := by
  have hrefuse : s.Leads {p} (s.refuse p) ∧ (s.refuse p).Waits ∧ (answer ≠ .error → (s.refuse p).lost = s.lost) :=
    ⟨refuse_leads h p, hw, fun _ => rfl⟩
  rw [sendSocket] at hs
  split at hs
  · cases hs
    exact hrefuse
  split at hs
  · cases hs
    exact hrefuse
  rename_i hopen hlisten
  have htype : s.type = .connecting ∨ s.type = .connected ∨ s.type = .bind := by
    cases hx : s.type <;> simp_all
  have hlive : s.live := by
    refine ⟨?_, ?_⟩ <;> rcases htype with hx | hx | hx <;> rw [hx] <;> exact (by cases ·)
  have hcarries : s.type.carries = true := by rcases htype with hx | hx | hx <;> rw [hx] <;> rfl
  have hflow := h.flow hlive
  dsimp only at hs
  split at hs
  · rename_i hempty
    have hq : s.queue = [] := by simpa [sendBufferEmpty, queue] using hempty.1
    have hconn : s.type = .connected := hempty.2
    cases answer with
    | error =>
      obtain ⟨t', ht, heq⟩ := Option.map_eq_some_iff.1 hs
      cases heq
      obtain ⟨hleads, hinv, -⟩ := forceClose_spec (s := { s with taken := s.taken ++ [p] }) hlive.2 h.polled
        (fun _ => hq) ht
      refine ⟨⟨hleads.ok.same rfl rfl rfl rfl rfl rfl rfl rfl rfl, ?_, hleads.id, hleads.type⟩, ?_,
        fun h => absurd rfl h⟩
      · have hall : t'.all = s.all := by
          rw [hleads.all, add_zero]
          rfl
        show (t'.refused : Multiset (Package β)) + t'.done + ↑(t'.lost ++ [p]) + items t'.queue = _
        rw [← hall, all, ← Multiset.coe_add, Multiset.coe_singleton]
        abel
      · show t'.type = _ → _
        rw [hinv]
        exact (by cases ·)
    | took n =>
      obtain ⟨hleads, hwaits, hlost⟩ := sendDirect_spec h hq hconn (Nat.min_le_right n _) hs
      exact ⟨hleads, hwaits, fun _ => hlost⟩
    | intr =>
      obtain ⟨hleads, hwaits, hlost⟩ := sendDirect_spec h hq hconn (Nat.zero_le _) hs
      exact ⟨hleads, hwaits, fun _ => hlost⟩
    | again =>
      obtain ⟨hleads, hwaits, hlost⟩ := sendDirect_spec h hq hconn (Nat.zero_le _) hs
      exact ⟨hleads, hwaits, fun _ => hlost⟩
  · rename_i hnot
    cases hs
    have hwriting : s.bound = false → s.writing = true := by
      intro hb
      by_cases hq : s.queue = []
      · rcases htype with hx | hx | hx
        · exact hw hx
        · refine absurd ⟨?_, hx⟩ hnot
          simpa [sendBufferEmpty, queue] using hq
        · rw [h.bind hx] at hb
          cases hb
      · exact h.interest hb (.inl hq)
    refine ⟨⟨⟨fun _ => flow_append hflow, ?_, ?_, ?_, ?_⟩, all_appendSendbuffer _ _ _, ?_, ?_⟩, ?_, fun _ => ?_⟩
    · rw [type_appendSendbuffer, hcarries]
      exact (by cases ·)
    · rw [polled_appendSendbuffer, type_appendSendbuffer]
      exact h.polled
    · rw [bound_appendSendbuffer, writing_appendSendbuffer]
      exact fun hb _ => hwriting hb
    · rw [bound_appendSendbuffer, type_appendSendbuffer]
      exact h.bind
    · exact id_appendSendbuffer _ _ _
    · exact .of_eq (type_appendSendbuffer _ _ _)
    · rw [Waits, type_appendSendbuffer, writing_appendSendbuffer]
      exact hw
    · exact lost_appendSendbuffer _ _ _

end Socket

end RoundGame.Skynet.SocketServer
