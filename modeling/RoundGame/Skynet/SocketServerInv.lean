import Mathlib.Algebra.BigOperators.Group.List.Basic
import RoundGame.Skynet.SocketServer
import RoundGame.Skynet.SocketStep

/-!
# The slots of the socket server

`Inv S` holds until the counter of ids comes round: what `Ok` says of every slot, and that a slot that is reserved is
filled by one command, which comes to the socket thread before any other for the same id. Everything that a step does
keeps it: a slot is reserved (`Inv.reserve`), a command is requested and written to the pipe (`Inv.request`,
`Inv.write`), the socket thread takes it (`Inv.pop`, `Inv.fill`), something happens to a slot (`Inv.move`), a connection
is accepted (`Inv.accept`).
-/

namespace RoundGame.Skynet.SocketServer

open Function Outbox StepSys

variable {β : Type} {S T : Server β} {slot : Nat → Socket β} {k n m rounds id : Nat} {t : Socket β}

/-! ## Reserving -/

theorem hashId_idOf (n : Nat) : hashId (idOf n) = n % MAX_SOCKET := by
  have hdvd : MAX_SOCKET ∣ 2 ^ 31 := by decide
  exact Nat.mod_mod_of_dvd n hdvd

theorem idOf_of_lt (h : n < 2 ^ 31) : idOf n = n := Nat.mod_eq_of_lt h

theorem reserveLoop_true (h : reserveLoop slot rounds n = (true, m)) :
    n < m ∧ (slot (hashId (idOf m))).type = .invalid := by
  induction rounds generalizing n with
  | zero => cases h
  | succ rounds ih =>
    rw [reserveLoop] at h
    split at h
    · rename_i hfree
      cases h
      exact ⟨Nat.lt_succ_self n, hfree⟩
    · obtain ⟨hlt, hfree⟩ := ih h
      exact ⟨Nat.lt_of_succ_lt hlt, hfree⟩

theorem reserveLoop_false (h : reserveLoop slot rounds n = (false, m)) :
    m = n + rounds ∧ ∀ j, n < j → j ≤ m → (slot (hashId (idOf j))).type ≠ .invalid := by
  induction rounds generalizing n with
  | zero =>
    cases h
    exact ⟨rfl, fun j hlt hle => absurd hlt (Nat.not_lt.2 hle)⟩
  | succ rounds ih =>
    rw [reserveLoop] at h
    split at h
    · cases h
    · rename_i hused
      obtain ⟨hm, hall⟩ := ih h
      refine ⟨by omega, fun j hlt hle => ?_⟩
      by_cases hj : j = n + 1
      · rw [hj]
        exact hused
      · exact hall j (by omega) hle

/-- The ids of the rounds are for all slots. -/
theorem exists_round (n k : Nat) (hk : k < MAX_SOCKET) : ∃ j, n < j ∧ j ≤ n + MAX_SOCKET ∧ hashId (idOf j) = k := by
  have hmax : MAX_SOCKET = 65536 := rfl
  refine ⟨n + 1 + (k + 65536 - (n + 1) % 65536) % 65536, by omega, by omega, ?_⟩
  rw [hashId_idOf, hmax]
  omega

namespace Server

theorem reserveId_cases (S : Server β) :
    (∃ n, S.reserveId = (none, { S with allocId := n }) ∧ S.allocId ≤ n ∧
      ∀ k, k < MAX_SOCKET → (S.slot k).type ≠ .invalid) ∨
    ∃ n, S.reserveId = (some (idOf n), { S with
      allocId := n
      slot := update S.slot (hashId (idOf n))
        { S.slot (hashId (idOf n)) with type := .reserve, id := idOf n } }) ∧
      S.allocId < n ∧ (S.slot (hashId (idOf n))).type = .invalid := by
  rw [reserveId]
  cases h : reserveLoop S.slot MAX_SOCKET S.allocId with
  | mk found n =>
    cases found with
    | false =>
      obtain ⟨hn, hall⟩ := reserveLoop_false h
      refine .inl ⟨n, rfl, by omega, fun k hk => ?_⟩
      obtain ⟨j, hlt, hle, hj⟩ := exists_round S.allocId k hk
      rw [← hj]
      exact hall j hlt (by omega)
    | true =>
      obtain ⟨hlt, hfree⟩ := reserveLoop_true h
      exact .inr ⟨n, rfl, hlt, hfree⟩

/-! ## The invariant -/

def queued (S : Server β) : List (Cmd β) := S.threads ++ S.pipe

/-- Before the counter comes round, a slot that is reserved is filled by one command, which comes before any other for
the same id. -/
structure Inv (S : Server β) : Prop where
  ok : ∀ k, (S.slot k).Ok
  waits : ∀ k, (S.slot k).Waits
  home : ∀ k, (S.slot k).type ≠ .invalid → hashId (S.slot k).id = k ∧ (S.slot k).id ≤ S.allocId
  given : ∀ i ∈ S.given, i ≤ S.allocId
  known : ∀ c ∈ S.queued, c.opens = false → c.id ∈ S.given
  fresh : ∀ c ∈ S.threads, c.opens = true → c.id ∉ S.given
  filling : ∀ c ∈ S.queued, c.opens = true →
    (S.slot (hashId c.id)).type = .reserve ∧ (S.slot (hashId c.id)).id = c.id
  nodup : ((S.queued.filter Cmd.opens).map Cmd.id).Nodup
  first : S.pipe.Pairwise fun d c => c.opens = true → d.id ≠ c.id
  reserved : ∀ k, (S.slot k).type = .reserve → ∃ c ∈ S.queued, c.opens = true ∧ c.id = (S.slot k).id

theorem inv_create : (create : Server β).Inv where
  ok _ := Socket.ok_empty
  waits _ := (by cases ·)
  home _ h := absurd rfl h
  given _ h := (List.not_mem_nil h).elim
  known _ h := (List.not_mem_nil h).elim
  fresh _ h := (List.not_mem_nil h).elim
  filling _ h := (List.not_mem_nil h).elim
  nodup := List.nodup_nil
  first := .nil
  reserved _ := (by cases ·)

theorem queued_pop {c : Cmd β} {pipe : List (Cmd β)} (hpipe : S.pipe = c :: pipe) :
    S.queued.Perm (c :: (S.threads ++ pipe)) := by
  rw [queued, hpipe]
  exact List.perm_middle

theorem queued_concat (S : Server β) (c : Cmd β) : (S.threads ++ [c] ++ S.pipe).Perm (c :: S.queued) := by
  rw [List.append_assoc]
  exact List.perm_middle

/-- Commands that fill a slot have different ids. -/
theorem Inv.opening_ne {c d : Cmd β} {l : List (Cmd β)} (h : S.Inv) (hperm : S.queued.Perm (c :: l))
    (hc : c.opens = true) (hd : d ∈ l) (hopens : d.opens = true) : d.id ≠ c.id := by
  intro heq
  have hnodup := h.nodup
  rw [((hperm.filter _).map _).nodup_iff, List.filter_cons_of_pos hc, List.map_cons, List.nodup_cons] at hnodup
  exact hnodup.1 (List.mem_map.2 ⟨d, List.mem_filter.2 ⟨hd, hopens⟩, heq⟩)

/-- The command at the head of the pipe is not for a slot that is reserved, unless it is the one that fills it. -/
theorem Inv.not_reserved {c : Cmd β} {pipe : List (Cmd β)} (h : S.Inv) (hpipe : S.pipe = c :: pipe)
    (hc : c.opens = false) (hr : (S.slot (hashId c.id)).type = .reserve) : (S.slot (hashId c.id)).id ≠ c.id := by
  intro hid
  have hmem : c ∈ S.queued := (queued_pop hpipe).mem_iff.2 List.mem_cons_self
  obtain ⟨d, hd, hopens, hdid⟩ := h.reserved _ hr
  rw [hid] at hdid
  rcases List.mem_append.1 hd with hd | hd
  · have hfresh := h.fresh d hd hopens
    rw [hdid] at hfresh
    exact hfresh (h.known c hmem hc)
  · rw [hpipe] at hd
    have hfirst := h.first
    rw [hpipe, List.pairwise_cons] at hfirst
    rcases List.mem_cons.1 hd with rfl | hd
    · rw [hopens] at hc
      cases hc
    · exact hfirst.1 d hd hopens hdid.symm

section Moves

variable {reports : List (Report β)} {aborted : Bool}

/-- Something happens to one slot. -/
theorem Inv.move (h : S.Inv) (k : Nat) (hok : t.Ok) (hwaits : t.Waits) (hid : t.id = (S.slot k).id)
    (hnext : SocketType.Next (S.slot k).type t.type) :
    Inv { S with slot := update S.slot k t, reports := reports, aborted := aborted } where
  ok := (forall_update_iff S.slot fun _ s => s.Ok).2 ⟨hok, fun k' _ => h.ok k'⟩
  waits := (forall_update_iff S.slot fun _ s => s.Waits).2 ⟨hwaits, fun k' _ => h.waits k'⟩
  home := by
    refine (forall_update_iff S.slot fun k' s => s.type ≠ .invalid → hashId s.id = k' ∧ s.id ≤ S.allocId).2
      ⟨fun hne => ?_, fun k' _ => h.home k'⟩
    rw [hid]
    exact h.home k fun hi => hne (hnext.invalid hi)
  given := h.given
  known := h.known
  fresh := h.fresh
  filling c hc hopens := by
    obtain ⟨htype, hcid⟩ := h.filling c hc hopens
    dsimp only
    by_cases hk : hashId c.id = k
    · rw [hk] at htype hcid
      rw [hk, update_self]
      exact ⟨hnext.reserve.2 htype, hid.trans hcid⟩
    · rw [update_of_ne hk]
      exact ⟨htype, hcid⟩
  nodup := h.nodup
  first := h.first
  reserved := by
    refine (forall_update_iff S.slot fun _ s => s.type = .reserve →
      ∃ c ∈ S.queued, c.opens = true ∧ c.id = s.id).2 ⟨fun hr => ?_, fun k' _ => h.reserved k'⟩
    rw [hid]
    exact h.reserved k (hnext.reserve.1 hr)

/-- A command that fills no slot is taken off the pipe. -/
theorem Inv.pop {c : Cmd β} {pipe : List (Cmd β)} (h : S.Inv) (hpipe : S.pipe = c :: pipe) (hc : c.opens = false) :
    Inv { S with pipe := pipe } := by
  have hsub : (S.threads ++ pipe).Sublist S.queued := by
    rw [queued, hpipe]
    exact List.Sublist.append_left (List.sublist_cons_self c pipe) _
  have hfirst := h.first
  rw [hpipe, List.pairwise_cons] at hfirst
  refine ⟨h.ok, h.waits, h.home, h.given, fun d hd => h.known d (hsub.mem hd), h.fresh,
    fun d hd => h.filling d (hsub.mem hd), h.nodup.sublist ((hsub.filter _).map _), hfirst.2, fun k hr => ?_⟩
  obtain ⟨d, hd, hopens, hdid⟩ := h.reserved k hr
  refine ⟨d, ?_, hopens, hdid⟩
  rcases List.mem_cons.1 ((queued_pop hpipe).mem_iff.1 hd) with rfl | hd
  · rw [hopens] at hc
    cases hc
  · exact hd

/-- The command at the head of the pipe fills its slot. -/
theorem Inv.fill {c : Cmd β} {pipe : List (Cmd β)} (h : S.Inv) (hpipe : S.pipe = c :: pipe) (hc : c.opens = true)
    (hfilled : (S.slot (hashId c.id)).Filled c.id t) :
    Inv { S with slot := update S.slot (hashId c.id) t, pipe := pipe, reports := reports, aborted := aborted } := by
  have hcmem : c ∈ S.queued := (queued_pop hpipe).mem_iff.2 List.mem_cons_self
  obtain ⟨hctype, hcid⟩ := h.filling c hcmem hc
  have hsub : (S.threads ++ pipe).Sublist S.queued := by
    rw [queued, hpipe]
    exact List.Sublist.append_left (List.sublist_cons_self c pipe) _
  have hfirst := h.first
  rw [hpipe, List.pairwise_cons] at hfirst
  refine ⟨(forall_update_iff S.slot fun _ s => s.Ok).2 ⟨hfilled.ok, fun k' _ => h.ok k'⟩,
    (forall_update_iff S.slot fun _ s => s.Waits).2 ⟨hfilled.waits, fun k' _ => h.waits k'⟩,
    (forall_update_iff S.slot fun k' s => s.type ≠ .invalid → hashId s.id = k' ∧ s.id ≤ S.allocId).2
      ⟨fun hne => ?_, fun k' _ => h.home k'⟩, h.given, fun d hd => h.known d (hsub.mem hd), h.fresh, ?_,
    h.nodup.sublist ((hsub.filter _).map _), hfirst.2, ?_⟩
  · rw [hfilled.id hne]
    refine ⟨rfl, ?_⟩
    have hle := (h.home (hashId c.id) (by rw [hctype]; exact (by cases ·))).2
    rwa [hcid] at hle
  · intro d hd hopens
    obtain ⟨hdtype, hdid⟩ := h.filling d (hsub.mem hd) hopens
    dsimp only
    by_cases hk : hashId d.id = hashId c.id
    · rw [hk, hcid] at hdid
      exact absurd hdid.symm (h.opening_ne (queued_pop hpipe) hc hd hopens)
    · rw [update_of_ne hk]
      exact ⟨hdtype, hdid⟩
  · refine (forall_update_iff S.slot fun _ s => s.type = .reserve →
      ∃ c ∈ S.threads ++ pipe, c.opens = true ∧ c.id = s.id).2 ⟨fun hr => absurd hr hfilled.type, fun k' hk' hr => ?_⟩
    obtain ⟨d, hd, hopens, hdid⟩ := h.reserved k' hr
    refine ⟨d, ?_, hopens, hdid⟩
    rcases List.mem_cons.1 ((queued_pop hpipe).mem_iff.1 hd) with rfl | hd
    · have hhome := (h.home k' (by rw [hr]; exact (by cases ·))).1
      rw [← hdid] at hhome
      exact absurd hhome.symm hk'
    · exact hd

theorem Inv.count (h : S.Inv) (hle : S.allocId ≤ n) : Inv { S with allocId := n } where
  ok := h.ok
  waits := h.waits
  home k hne := ⟨(h.home k hne).1, (h.home k hne).2.trans hle⟩
  given i hi := (h.given i hi).trans hle
  known := h.known
  fresh := h.fresh
  filling := h.filling
  nodup := h.nodup
  first := h.first
  reserved := h.reserved

/-- The ids of the commands that fill a slot are not new. -/
theorem Inv.opening_le (h : S.Inv) {c : Cmd β} (hc : c ∈ S.queued) (hopens : c.opens = true) : c.id ≤ S.allocId := by
  obtain ⟨htype, hid⟩ := h.filling c hc hopens
  have hle := (h.home (hashId c.id) (by rw [htype]; exact (by cases ·))).2
  rwa [hid] at hle

theorem Inv.slot_ne (h : S.Inv) (hfree : (S.slot k).type = .invalid) {c : Cmd β} (hc : c ∈ S.queued)
    (hopens : c.opens = true) : hashId c.id ≠ k := by
  rintro rfl
  rw [(h.filling c hc hopens).1] at hfree
  cases hfree

/-- A slot is reserved for a new id, and a thread is about to write the command that fills it. -/
theorem Inv.reserve {c : Cmd β} (h : S.Inv) (hlt : S.allocId < n) (hfree : (S.slot (hashId n)).type = .invalid)
    (hc : c.opens = true) (hid : c.id = n) :
    Inv { S with
      allocId := n
      slot := update S.slot (hashId n) { S.slot (hashId n) with type := .reserve, id := n }
      threads := S.threads ++ [c] } := by
  have hmem : ∀ d, d ∈ S.threads ++ [c] ++ S.pipe ↔ d = c ∨ d ∈ S.queued := fun d =>
    (queued_concat S c).mem_iff.trans List.mem_cons
  have hnew : ∀ d ∈ S.queued, d.opens = true → d.id ≠ n := by
    intro d hd hopens heq
    have hle := h.opening_le hd hopens
    omega
  refine ⟨(forall_update_iff S.slot fun _ s => s.Ok).2 ⟨Socket.reserve_spec _ (h.ok _) hfree, fun k' _ => h.ok k'⟩,
    (forall_update_iff S.slot fun _ s => s.Waits).2 ⟨(by cases ·), fun k' _ => h.waits k'⟩,
    (forall_update_iff S.slot fun k' s => s.type ≠ .invalid → hashId s.id = k' ∧ s.id ≤ n).2
      ⟨fun _ => ⟨rfl, Nat.le_refl n⟩, fun k' _ hne => ?_⟩,
    fun i hi => (h.given i hi).trans hlt.le, fun d hd hopens => ?_, fun d hd hopens => ?_, fun d hd hopens => ?_, ?_,
    h.first, ?_⟩
  · obtain ⟨hhome, hle⟩ := h.home k' hne
    exact ⟨hhome, hle.trans hlt.le⟩
  · rcases (hmem d).1 hd with rfl | hd
    · rw [hc] at hopens
      cases hopens
    · exact h.known d hd hopens
  · rcases List.mem_append.1 hd with hd | hd
    · exact h.fresh d hd hopens
    · rw [List.mem_singleton.1 hd, hid]
      intro hgiven
      have hle := h.given n hgiven
      omega
  · dsimp only
    rcases (hmem d).1 hd with rfl | hd
    · rw [hid, update_self]
      exact ⟨rfl, rfl⟩
    · rw [update_of_ne (h.slot_ne hfree hd hopens)]
      exact h.filling d hd hopens
  · show (((S.threads ++ [c] ++ S.pipe).filter Cmd.opens).map Cmd.id).Nodup
    rw [(((queued_concat S c).filter _).map _).nodup_iff, List.filter_cons_of_pos hc, List.map_cons, List.nodup_cons]
    refine ⟨fun hm => ?_, h.nodup⟩
    obtain ⟨d, hd, heq⟩ := List.mem_map.1 hm
    obtain ⟨hd, hopens⟩ := List.mem_filter.1 hd
    exact hnew d hd hopens (heq.trans hid)
  · refine (forall_update_iff S.slot fun _ s => s.type = .reserve →
      ∃ d ∈ S.threads ++ [c] ++ S.pipe, d.opens = true ∧ d.id = s.id).2 ⟨fun _ => ?_, fun k' _ hr => ?_⟩
    · exact ⟨c, (hmem c).2 (.inl rfl), hc, hid⟩
    · obtain ⟨d, hd, hopens, hdid⟩ := h.reserved k' hr
      exact ⟨d, (hmem d).2 (.inr hd), hopens, hdid⟩

/-- A slot is reserved and filled at once, and a service is told of it. -/
theorem Inv.accept (h : S.Inv) (hlt : S.allocId < n) (hfree : (S.slot (hashId n)).type = .invalid) (hok : t.Ok)
    (hwaits : t.Waits) (hr : t.type ≠ .reserve) (hid : t.type ≠ .invalid → t.id = n) :
    Inv { S with
      allocId := n
      slot := update S.slot (hashId n) t
      reports := reports
      given := S.given ++ [n] } := by
  refine ⟨(forall_update_iff S.slot fun _ s => s.Ok).2 ⟨hok, fun k' _ => h.ok k'⟩,
    (forall_update_iff S.slot fun _ s => s.Waits).2 ⟨hwaits, fun k' _ => h.waits k'⟩,
    (forall_update_iff S.slot fun k' s => s.type ≠ .invalid → hashId s.id = k' ∧ s.id ≤ n).2
      ⟨fun hne => ?_, fun k' _ hne => ?_⟩,
    fun i hi => ?_, fun d hd hopens => List.mem_append_left _ (h.known d hd hopens), fun d hd hopens hm => ?_,
    fun d hd hopens => ?_, h.nodup, h.first, ?_⟩
  · rw [hid hne]
    exact ⟨rfl, Nat.le_refl n⟩
  · obtain ⟨hhome, hle⟩ := h.home k' hne
    exact ⟨hhome, hle.trans hlt.le⟩
  · rcases List.mem_append.1 hi with hi | hi
    · exact (h.given i hi).trans hlt.le
    · rw [List.mem_singleton.1 hi]
  · rcases List.mem_append.1 hm with hm | hm
    · exact h.fresh d hd hopens hm
    · have hle := h.opening_le (List.mem_append_left _ hd) hopens
      rw [List.mem_singleton.1 hm] at hle
      omega
  · dsimp only
    rw [update_of_ne (h.slot_ne hfree hd hopens)]
    exact h.filling d hd hopens
  · exact (forall_update_iff S.slot fun _ s => s.type = .reserve →
      ∃ d ∈ S.queued, d.opens = true ∧ d.id = s.id).2 ⟨fun h => absurd h hr, fun k' _ => h.reserved k'⟩

/-- A thread is about to write a command for an id that it was told of. -/
theorem Inv.request {c : Cmd β} (h : S.Inv) (hc : c.opens = false) (hid : c.id ∈ S.given) :
    Inv { S with threads := S.threads ++ [c] } := by
  have hmem : ∀ d, d ∈ S.threads ++ [c] ++ S.pipe ↔ d = c ∨ d ∈ S.queued := fun d =>
    (queued_concat S c).mem_iff.trans List.mem_cons
  have hold : ∀ d ∈ S.threads ++ [c] ++ S.pipe, d.opens = true → d ∈ S.queued := by
    intro d hd hopens
    rcases (hmem d).1 hd with rfl | hd
    · rw [hopens] at hc
      cases hc
    · exact hd
  refine ⟨h.ok, h.waits, h.home, h.given, fun d hd hopens => ?_, fun d hd hopens => ?_,
    fun d hd hopens => h.filling d (hold d hd hopens) hopens, ?_, h.first, fun k hr => ?_⟩
  · rcases (hmem d).1 hd with rfl | hd
    · exact hid
    · exact h.known d hd hopens
  · rcases List.mem_append.1 hd with hd | hd
    · exact h.fresh d hd hopens
    · rw [List.mem_singleton.1 hd, hc] at hopens
      cases hopens
  · show (((S.threads ++ [c] ++ S.pipe).filter Cmd.opens).map Cmd.id).Nodup
    rw [(((queued_concat S c).filter _).map _).nodup_iff, List.filter_cons_of_neg (by rw [hc]; exact (by cases ·))]
    exact h.nodup
  · obtain ⟨d, hd, hopens, hdid⟩ := h.reserved k hr
    exact ⟨d, (hmem d).2 (.inr hd), hopens, hdid⟩

/-- A thread writes its command; if it fills a slot, the id is told from then on. -/
theorem Inv.write {c : Cmd β} {threads : List (Cmd β)} (h : S.Inv) (hperm : S.threads.Perm (c :: threads)) :
    Inv { S with
      threads := threads
      pipe := S.pipe ++ [c]
      given := if c.opens then S.given ++ [c.id] else S.given } := by
  have hall : (threads ++ (S.pipe ++ [c])).Perm S.queued := by
    refine List.Perm.trans ?_ (hperm.append_right S.pipe).symm
    rw [← List.append_assoc]
    exact List.perm_append_singleton c _
  have hsub : ∀ i ∈ S.given, i ∈ if c.opens then S.given ++ [c.id] else S.given := by
    intro i hi
    split
    · exact List.mem_append_left _ hi
    · exact hi
  have hcmem : c ∈ S.threads := hperm.mem_iff.2 List.mem_cons_self
  have hcons : S.queued.Perm (c :: (threads ++ S.pipe)) := hperm.append_right S.pipe
  refine ⟨h.ok, h.waits, h.home, fun i hi => ?_, fun d hd hopens => hsub _ (h.known d (hall.mem_iff.1 hd) hopens),
    fun d hd hopens hm => ?_, fun d hd hopens => h.filling d (hall.mem_iff.1 hd) hopens,
    ((hall.filter _).map _).nodup_iff.2 h.nodup, ?_, fun k hr => ?_⟩
  · dsimp only at hi
    split at hi
    · rename_i hc
      rcases List.mem_append.1 hi with hi | hi
      · exact h.given i hi
      · rw [List.mem_singleton.1 hi]
        exact h.opening_le (List.mem_append_left _ hcmem) hc
    · exact h.given i hi
  · have hfresh := h.fresh d (hperm.mem_iff.2 (List.mem_cons_of_mem _ hd)) hopens
    dsimp only at hm
    split at hm
    · rename_i hc
      rcases List.mem_append.1 hm with hm | hm
      · exact hfresh hm
      · exact h.opening_ne hcons hc (List.mem_append_left _ hd) hopens (List.mem_singleton.1 hm)
    · exact hfresh hm
  · -- what is in the pipe is for other ids than the command that fills a slot
    refine List.pairwise_append.2 ⟨h.first, List.pairwise_singleton _ _, fun d hd e he hopens => ?_⟩
    rw [List.mem_singleton.1 he] at hopens ⊢
    cases hd' : d.opens with
    | true => exact h.opening_ne hcons hopens (List.mem_append_right _ hd) hd'
    | false =>
      intro heq
      have hknown := h.known d (List.mem_append_right _ hd) hd'
      rw [heq] at hknown
      exact h.fresh c hcmem hopens hknown
  · obtain ⟨d, hd, hopens, hdid⟩ := h.reserved k hr
    exact ⟨d, hall.mem_iff.2 hd, hopens, hdid⟩

end Moves

end Server

/-! ## Steps -/

/-- The package of a command for the slot `k`. -/
def Cmd.packages (k : Nat) : Cmd β → Multiset (Package β)
  | send id p => if hashId id = k then {p} else 0
  | _ => 0

/-- A request to shut down the socket in the slot `k`. -/
def Cmd.Shuts (k : Nat) : Cmd β → Prop
  | close id _ true => hashId id = k
  | _ => False

def Kernel.Fails (K : Kernel) : Prop := K.write = .error ∨ ∃ a ∈ K.answers, a = .error

namespace Act

def handed (k : Nat) : Act β → Multiset (Package β)
  | request c => c.packages k
  | _ => 0

/-- For the socket in the slot `k`, the kernel reports an error, the other side closes, or a service asks for a
shutdown. -/
def Breaks (S : Server β) (k : Nat) : Act β → Prop
  | request c => c.Shuts k
  | ctrl K => K.Fails ∧ ∃ c ∈ S.pipe.head?, hashId c.id = k
  | event j (.connect ok) => j = k ∧ ok = false
  | event j (.read answer) => j = k ∧ ¬ Socket.Reads answer
  | event j (.write answers) => j = k ∧ ∃ a ∈ answers, a = .error
  | _ => False

end Act

section Commands

variable {c : Cmd β} {K : Kernel} {s : Socket β} {rep : Option (Report β)}

theorem packages_of_opens (hc : c.opens = true) (k : Nat) : c.packages k = 0 := by
  cases c <;> first | rfl | cases hc

theorem not_shuts_of_opens (hc : c.opens = true) (k : Nat) : ¬ c.Shuts k := by
  cases c <;> first | exact id | cases hc

theorem packages_of_ne (hk : hashId c.id ≠ k) : c.packages k = 0 := by
  cases c <;> first | rfl | exact if_neg hk

theorem run_filled (hc : c.opens = true) (h : s.Ok) (hr : s.type = .reserve) :
    ∃ t rep, c.run K s = some (t, rep) ∧ s.Filled c.id t := by
  cases c with
  | bind id handle => exact Socket.bindSocket_spec handle K.added h hr
  | listen id handle => exact Socket.listenSocket_spec handle h hr
  | connect id handle => exact Socket.openSocket_spec handle K.connect h hr
  | start id handle => cases hc
  | close id handle shutdown => cases hc
  | send id package => cases hc

theorem run_leads (hc : c.opens = false) (h : s.Ok) (hw : s.Waits) (hr : s.type = .reserve → s.id ≠ c.id)
    (hs : c.run K s = some (t, rep)) :
    s.Leads (c.packages (hashId c.id)) t ∧ t.Waits ∧ (¬ K.Fails → ¬ c.Shuts (hashId c.id) → t.lost = s.lost) := by
  cases c with
  | start id handle =>
    obtain ⟨hleads, hwaits, hlost⟩ := Socket.startSocket_spec h hw hr hs
    exact ⟨hleads, hwaits, fun _ _ => hlost⟩
  | close id handle shutdown =>
    obtain ⟨hleads, hwaits, hlost⟩ := Socket.closeSocket_spec h hw hr hs
    refine ⟨hleads, hwaits, fun hok hno => hlost ?_ fun a ha hea => hok (.inr ⟨a, ha, hea⟩)⟩
    cases shutdown with
    | false => rfl
    | true => exact absurd rfl hno
  | send id package =>
    obtain ⟨hleads, hwaits, hlost⟩ := Socket.sendSocket_spec h hw hr hs
    have hself : (Cmd.send id package : Cmd β).packages (hashId id) = {package} := if_pos rfl
    refine ⟨?_, hwaits, fun hok _ => hlost fun hea => hok (.inl hea)⟩
    show s.Leads ((Cmd.send id package : Cmd β).packages (hashId id)) t
    rw [hself]
    exact hleads
  | bind id handle => cases hc
  | listen id handle => cases hc
  | connect id handle => cases hc

theorem run_isSome (hc : c.opens = false) (h : s.Ok) (hplain : s.Plain) (hr : s.type = .reserve → s.id ≠ c.id) :
    (c.run K s).isSome := by
  cases c with
  | start id handle => exact Socket.startSocket_isSome hr
  | close id handle shutdown => exact Socket.closeSocket_isSome h hplain hr
  | send id package => exact Socket.sendSocket_isSome hr
  | bind id handle => cases hc
  | listen id handle => cases hc
  | connect id handle => cases hc

end Commands

end RoundGame.Skynet.SocketServer
