import RoundGame.Gate.ServiceGate

/-!
# Taking messages out of chunks

What a connection was sent and has not been given yet is its `pending` bytes. The gate keeps the pending bytes of all
connections in one pool: `Buffers` relates the pool and the buffers to them.

A chunk goes behind the pending bytes of its connection, every complete message is sent off, and the pending bytes of
the other connections stay as they are (`dispatchMessage_spec`).
-/

namespace RoundGame.Gate

open Framing Heap Function DataBuffer

/-! ## The buffers of all connections -/

/-- The buffers `buf` are in order, have no node in common, and hold the bytes `pend`. -/
def Buffers (mp : MessagePool) (buf : Nat → DataBuffer) (pend : Nat → Bytes) : Prop :=
  ∃ (nodes : Nat → List Nat) (fs : List Nat),
    (∀ i, Framed mp (buf i) (nodes i) fs ∧ pending mp (buf i) (nodes i) = pend i) ∧
      ∀ i j, i ≠ j → ∀ n ∈ nodes i, n ∉ nodes j

section

variable {mp mp' : MessagePool} {db db' : DataBuffer} {ns ns' fs fs' : List Nat}

theorem framed_frame (h : Framed mp db ns fs) {own own' ni : List Nat} {di : DataBuffer}
    (hm : Moves mp mp' own own') (hapart : ∀ n ∈ ns, n ∉ own) (hi : Links mp' di ni fs')
    (hsub : ∀ n ∈ fs', n ∈ own') : Framed mp' db ns fs' ∧ pending mp' db ns = pending mp db ns := by
  obtain ⟨hlinks, hsame⟩ := h.links.frame hm hapart hi hsub
  have hunread : unread mp' db ns = unread mp db ns := by
    unfold unread
    rw [bytes_congr fun n hn => congrArg Message.buffer (hsame n hn)]
  refine ⟨⟨⟨hlinks, ?_, ?_⟩, h.header⟩, ?_⟩
  · rcases h.fits with h0 | ⟨n, hn, hlt⟩
    · exact Or.inl h0
    · refine Or.inr ⟨n, hn, ?_⟩
      rw [hsame n (List.mem_of_mem_head? hn)]
      exact hlt
  · rw [hunread]
    exact h.size
  · unfold pending
    rw [hunread]

end

/-- What is done to one buffer leaves the others alone. -/
theorem Buffers.one {mp : MessagePool} {buf : Nat → DataBuffer} {pend : Nat → Bytes} (h : Buffers mp buf pend)
    (i : Nat) :
    ∃ ns fs, Framed mp (buf i) ns fs ∧ pending mp (buf i) ns = pend i ∧
      ∀ mp' db' ns' fs', Framed mp' db' ns' fs' → Moves mp mp' (ns ++ fs) (ns' ++ fs') →
        Buffers mp' (update buf i db') (update pend i (pending mp' db' ns')) := by
  obtain ⟨nodes, fs, hframed, hapart⟩ := h
  refine ⟨nodes i, fs, (hframed i).1, (hframed i).2, ?_⟩
  intro mp' db' ns' fs' hframed' hmoves
  have hother : ∀ j, j ≠ i → ∀ n ∈ nodes j, n ∉ nodes i ++ fs := by
    intro j hj n hn hmem
    rcases List.mem_append.1 hmem with hmem | hmem
    · exact hapart j i hj n hn hmem
    · exact (List.nodup_append'.1 (hframed j).1.links.nodup).2.2 hn hmem
  have hothers : ∀ j, j ≠ i → Framed mp' (buf j) (nodes j) fs' ∧ pending mp' (buf j) (nodes j) = pend j := by
    intro j hj
    rw [← (hframed j).2]
    exact framed_frame (hframed j).1 hmoves (hother j hj) hframed'.links fun n hn => List.mem_append_right _ hn
  have hnew : ∀ j, j ≠ i → ∀ n ∈ nodes j, n ∉ ns' := by
    intro j hj n hn hmem
    have hlt : ∀ k ∈ nodes j, k < mp.brk := fun k hk => (hframed j).1.links.lt k (List.mem_append_left _ hk)
    exact hmoves.apart hlt (hother j hj) n hn (List.mem_append_left _ hmem)
  refine ⟨update nodes i ns', fs', ?_, ?_⟩
  · intro j
    by_cases hj : j = i
    · subst hj
      rw [update_self, update_self, update_self]
      exact ⟨hframed', rfl⟩
    · rw [update_of_ne hj, update_of_ne hj, update_of_ne hj]
      exact hothers j hj
  · intro j k hjk n hn
    by_cases hj : j = i
    · subst hj
      rw [update_self] at hn
      rw [update_of_ne (Ne.symm hjk)]
      exact fun hmem => hnew k (Ne.symm hjk) n hmem hn
    · rw [update_of_ne hj] at hn
      by_cases hk : k = i
      · subst hk
        rw [update_self]
        exact hnew j hj n hn
      · rw [update_of_ne hk]
        exact hapart j k hjk n hn

/-! ## The loop of the gate -/

/-- Where `_forward` sends the message `p` of a connection, and in which form. -/
def envelope (g : GateState) (c : Connection) (p : Bytes) : Effect :=
  if g.broker ≠ 0 then .send 0 g.broker g.client_tag p
  else if c.agent ≠ 0 then .send c.client c.agent g.client_tag (fdBytes c.id ++ p)
  else .send 0 g.watchdog PTYPE_TEXT (text s!"{c.id} data " ++ p)

/-- There is somebody to send messages to. -/
def Served (g : GateState) (c : Connection) : Prop := g.broker ≠ 0 ∨ c.agent ≠ 0 ∨ g.watchdog ≠ 0

section

variable {g : GateState} {c : Connection} {mp : MessagePool} {ns fs : List Nat} {p rest : Bytes}

theorem forward_spec (hs : Served g c) (h : Holds mp c.buffer ns fs) (hun : unread mp c.buffer ns = p ++ rest)
    (hp : p ≠ []) :
    ∃ db' mp' ns' fs', g.forward c mp p.length = some ([envelope g c p], { c with buffer := db' }, mp') ∧
      Holds mp' db' ns' fs' ∧ unread mp' db' ns' = rest ∧ Moves mp mp' (ns ++ fs) (ns' ++ fs') := by
  have hsize : p.length ≤ c.buffer.size := by
    rw [h.size, hun, List.length_append]
    exact Nat.le_add_right ..
  obtain ⟨db', mp', ns', fs', hread, hholds, hrest, -, hmoves⟩ := read_spec h (List.length_pos_of_ne_nil hp) hsize
  rw [hun, List.take_left] at hread
  rw [hun, List.drop_left] at hrest
  refine ⟨db', mp', ns', fs', ?_, hholds, hrest, hmoves⟩
  unfold GateState.forward envelope
  rw [hread]
  by_cases hbroker : g.broker ≠ 0
  · rw [if_pos hbroker, if_pos hbroker]
    rfl
  · rw [if_neg hbroker, if_neg hbroker]
    by_cases hagent : c.agent ≠ 0
    · rw [if_pos hagent, if_pos hagent]
      rfl
    · rw [if_neg hagent, if_neg hagent, if_pos ((hs.resolve_left hbroker).resolve_left hagent)]
      rfl

/-- The complete messages are sent off, but for empty ones, and the rest stays. -/
theorem dispatchLoop_spec {fuel : Nat} {id : Int} (hh : g.header_size = 2) (hs : Served g c)
    (h : Framed mp c.buffer ns fs) (hfuel : (pending mp c.buffer ns).length < fuel) :
    ∃ ps db' mp' ns' fs',
      g.dispatchLoop id fuel c mp = some ((ps.filter (· ≠ [])).map (envelope g c), { c with buffer := db' }, mp') ∧
      Framed mp' db' ns' fs' ∧ Moves mp mp' (ns ++ fs) (ns' ++ fs') ∧ (∀ p ∈ ps, p.length < 65536) ∧
      pending mp c.buffer ns = frames ps ++ pending mp' db' ns' ∧ unframe (pending mp' db' ns') = none := by
  induction fuel generalizing c mp ns fs with
  | zero => cases hfuel
  | succ fuel ih =>
    obtain ⟨size, db₁, mp₁, ns₁, fs₁, hread, hframed, hmoves, hcase⟩ := readheader_spec h
    unfold GateState.dispatchLoop
    rw [hh, hread]
    simp only [Option.bind_some]
    rcases hcase with ⟨rfl, hnone, hsame⟩ | ⟨p, rest, hun, rfl, hheader, hunread⟩
    · refine ⟨[], db₁, mp₁, ns₁, fs₁, rfl, hframed, hmoves, by simp, ?_, ?_⟩
      · rw [hsame]
        rfl
      · rw [hsame]
        exact hnone
    · obtain ⟨heq, hlt⟩ := eq_of_unframe hun
      have hlen : (pending mp c.buffer ns).length = 2 + p.length + rest.length := by
        rw [heq]
        simp [frame, be16]
        omega
      rw [if_neg (by omega)]
      by_cases hp : p = []
      · subst hp
        have hzero : db₁.header = 0 := hheader
        have hpending : pending mp₁ db₁ ns₁ = rest := by
          unfold pending
          rw [if_pos hzero, hunread]
          rfl
        obtain ⟨ps, db', mp', ns', fs', hloop, hframed', hmoves', hps, hrest, hnone⟩ :=
          @ih { c with buffer := db₁ } mp₁ ns₁ fs₁ hs hframed (by rw [hpending]; omega)
        rw [if_neg (by simp), hloop]
        refine ⟨[] :: ps, db', mp', ns', fs', rfl, hframed', hmoves.trans hmoves', ?_, ?_, hnone⟩
        · intro q hq
          rcases List.mem_cons.1 hq with rfl | hq
          · exact hlt
          · exact hps q hq
        · rw [heq, ← hpending, hrest, frames_cons, List.append_assoc]
      · have hpos : 0 < p.length := List.length_pos_of_ne_nil hp
        obtain ⟨db₂, mp₂, ns₂, fs₂, hforward, hholds, hrest₂, hmoves₂⟩ :=
          @forward_spec g { c with buffer := db₁ } mp₁ ns₁ fs₁ p rest hs hframed.toHolds hunread hp
        have hframed₂ : Framed mp₂ db₂.reset ns₂ fs₂ := hholds.framed (by decide)
        have hpending : pending mp₂ db₂.reset ns₂ = rest := hrest₂
        obtain ⟨ps, db', mp', ns', fs', hloop, hframed', hmoves', hps, hrest, hnone⟩ :=
          @ih { c with buffer := db₂.reset } mp₂ ns₂ fs₂ hs hframed₂ (by rw [hpending]; omega)
        rw [if_pos (by omega), if_neg (by omega), Int.toNat_natCast, hforward]
        simp only [Option.bind_some]
        rw [hloop]
        refine ⟨p :: ps, db', mp', ns', fs', ?_, hframed', (hmoves.trans hmoves₂).trans hmoves', ?_, ?_, hnone⟩
        · rw [List.filter_cons_of_pos (by simpa using hp)]
          rfl
        · intro q hq
          rcases List.mem_cons.1 hq with rfl | hq
          · exact hlt
          · exact hps q hq
        · rw [heq, ← hpending, hrest, frames_cons, List.append_assoc]

end

/-! ## The gate as a whole -/

/-- What holds of a gate with short headers and a watchdog, when `pend` are the pending bytes of the slots. -/
structure Inv (g : GateState) (pend : Nat → Bytes) : Prop where
  hash : g.hash.Wf
  header_size : g.header_size = 2
  client_tag : g.client_tag = PTYPE_SOCKET
  watchdog : g.watchdog ≠ 0
  buffers : Buffers g.mp (fun i => (g.conn i).buffer) pend
  id : ∀ fd i, g.lookup fd = some i → (g.conn i).id = fd ∧ 0 ≤ fd ∧ fd < 2 ^ 31
  cut : ∀ i, unframe (pend i) = none

/-- The two gates route messages in the same way. -/
structure SameRoutes (g g' : GateState) : Prop where
  lookup : ∀ fd, g'.lookup fd = g.lookup fd
  sends : ∀ i p, envelope g' (g'.conn i) p = envelope g (g.conn i) p

theorem buffer_update (conn : Nat → Connection) (i : Nat) (c : Connection) :
    (fun j => (update conn i c j).buffer) = update (fun j => (conn j).buffer) i c.buffer := by
  funext j
  by_cases hj : j = i
  · subst hj
    rw [update_self, update_self]
  · rw [update_of_ne hj, update_of_ne hj]

theorem Inv.cut_update {g : GateState} {pend : Nat → Bytes} {i : Nat} {rest : Bytes} (h : Inv g pend)
    (hrest : unframe rest = none) (j : Nat) : unframe (update pend i rest j) = none := by
  by_cases hj : j = i
  · subst hj
    rw [update_self]
    exact hrest
  · rw [update_of_ne hj]
    exact h.cut j

/-- A connection gets another buffer. -/
theorem inv_setBuffer {g : GateState} {pend : Nat → Bytes} {i : Nat} {db : DataBuffer} {mp : MessagePool}
    {rest : Bytes} (h : Inv g pend)
    (hbuffers : Buffers mp (update (fun j => (g.conn j).buffer) i db) (update pend i rest))
    (hcut : unframe rest = none) :
    Inv { g with conn := update g.conn i { g.conn i with buffer := db }, mp := mp } (update pend i rest) := by
  refine ⟨h.hash, h.header_size, h.client_tag, h.watchdog, ?_, ?_, ?_⟩
  · simp only [buffer_update]
    exact hbuffers
  · intro fd j hj
    obtain ⟨hid, hfd⟩ := h.id fd j hj
    refine ⟨?_, hfd⟩
    show (update g.conn i _ j).id = fd
    by_cases hji : j = i
    · subst hji
      rw [update_self]
      exact hid
    · rw [update_of_ne hji]
      exact hid
  · exact h.cut_update hcut

theorem sameRoutes_setBuffer {g : GateState} {i : Nat} {db : DataBuffer} {mp : MessagePool} :
    SameRoutes g { g with conn := update g.conn i { g.conn i with buffer := db }, mp := mp } := by
  refine ⟨fun _ => rfl, ?_⟩
  intro j p
  show envelope g (update g.conn i _ j) p = _
  by_cases hj : j = i
  · subst hj
    rw [update_self]
    rfl
  · rw [update_of_ne hj]

/-- A chunk for the slot `i`. -/
theorem dispatchMessage_spec {g : GateState} {pend : Nat → Bytes} {i : Nat} {id : Int} {data : Bytes}
    (h : Inv g pend) (hdata : data ≠ []) :
    ∃ ps rest g', g.dispatchMessage i id data = some ((ps.filter (· ≠ [])).map (envelope g (g.conn i)), g') ∧
      Inv g' (update pend i rest) ∧ SameRoutes g g' ∧ pend i ++ data = frames ps ++ rest ∧
      ∀ p ∈ ps, p.length < 65536 := by
  obtain ⟨ns, fs, hframed, hpend, hone⟩ := h.buffers.one i
  obtain ⟨db₁, mp₁, ns₁, fs₁, hpush, hholds, hunread, hheader, hmoves⟩ := push_spec hframed.toHolds hdata
  have hframed₁ : Framed mp₁ db₁ ns₁ fs₁ := ⟨hholds, by rw [hheader]; exact hframed.header⟩
  have hpending : pending mp₁ db₁ ns₁ = pend i ++ data := by
    rw [← hpend]
    unfold pending
    rw [hheader, hunread, List.append_assoc]
  have hfuel : (pending mp₁ db₁ ns₁).length < 2 * db₁.size + 2 := by
    have hpos : 0 < db₁.size := by
      rw [hholds.size, hunread, List.length_append]
      exact Nat.add_pos_right _ (List.length_pos_of_ne_nil hdata)
    have hhead : (pending mp₁ db₁ ns₁).length ≤ 2 + db₁.size := by
      unfold pending
      rw [List.length_append, hholds.size]
      split
      · simp
      · simp [be16]
    omega
  let c₁ : Connection := { g.conn i with buffer := db₁ }
  have hserved : Served g c₁ := Or.inr (Or.inr h.watchdog)
  obtain ⟨ps, db', mp', ns', fs', hloop, hframed', hmoves', hps, hrest, hnone⟩ :=
    @dispatchLoop_spec g c₁ mp₁ ns₁ fs₁ _ id h.header_size hserved hframed₁ hfuel
  let c' : Connection := { g.conn i with buffer := db' }
  let g' : GateState := { g with conn := update g.conn i c', mp := mp' }
  have hbuffers := hone mp' db' ns' fs' hframed' (hmoves.trans hmoves')
  refine ⟨ps, pending mp' db' ns', g', ?_, inv_setBuffer h hbuffers hnone, sameRoutes_setBuffer, ?_, hps⟩
  · unfold GateState.dispatchMessage
    simp only [hpush, Option.bind_some]
    show (g.dispatchLoop id _ c₁ mp₁).map _ = _
    rw [hloop]
    rfl
  · rw [← hpending]
    exact hrest

/-! ## Reachable states -/

/-- What the socket server and the services send to a gate: no empty chunk, and a new socket has a new id. -/
def Env (g : GateState) : Msg → Prop
  | .socket (.data _ buffer) => buffer ≠ []
  | .socket (.accept _ ud _) => 0 ≤ ud ∧ ud < 2 ^ 31 ∧ g.lookup ud = none
  | _ => True

/-- The gates that `CGateObj` launches, after any messages. -/
inductive Reachable : GateState → Prop
  | launch (watchdog listen_id max : Nat) (hw : watchdog ≠ 0) :
    Reachable (.init 'S' watchdog listen_id PTYPE_SOCKET max)
  | step {g g' : GateState} {m : Msg} {out : List Effect} (h : Reachable g) (henv : Env g m)
    (hcb : g.cb m = some (out, g')) : Reachable g'

section

variable {g g' : GateState} {pend : Nat → Bytes} {out : List Effect}

theorem inv_launch (watchdog listen_id max : Nat) (hw : watchdog ≠ 0) :
    Inv (.init 'S' watchdog listen_id PTYPE_SOCKET max) fun _ => [] := by
  have hframed : ∀ i : Nat, Framed .init DataBuffer.init [] [] := by
    intro _
    refine ⟨⟨⟨rfl, rfl, ?_, rfl, List.nodup_nil, ?_⟩, Or.inl rfl, rfl⟩, by decide⟩
    · exact fun n hn => by cases hn
    · exact fun n hn => by cases hn
  refine ⟨HashId.wf_init max, rfl, rfl, hw, ⟨fun _ => [], [], fun i => ⟨hframed i, rfl⟩, ?_⟩, ?_, fun _ => rfl⟩
  · exact fun _ _ _ n hn => by cases hn
  · exact fun fd i hi => by cases hi

/-- A change that touches neither buffers nor ids. -/
theorem Inv.congr (h : Inv g pend) (hhash : g'.hash = g.hash) (hsize : g'.header_size = g.header_size)
    (htag : g'.client_tag = g.client_tag) (hw : g'.watchdog = g.watchdog) (hmp : g'.mp = g.mp)
    (hconn : ∀ i, (g'.conn i).buffer = (g.conn i).buffer ∧ (g'.conn i).id = (g.conn i).id) : Inv g' pend := by
  refine ⟨hhash ▸ h.hash, hsize ▸ h.header_size, htag ▸ h.client_tag, hw ▸ h.watchdog, ?_, ?_, h.cut⟩
  · have hbuf : (fun i => (g'.conn i).buffer) = fun i => (g.conn i).buffer := funext fun i => (hconn i).1
    rw [hmp, hbuf]
    exact h.buffers
  · intro fd i hi
    unfold GateState.lookup at hi
    rw [hhash] at hi
    rw [(hconn i).2]
    exact h.id fd i hi

theorem inv_ctrl (h : Inv g pend) (c : Ctrl) : Inv (g.ctrl c).2 pend := by
  cases c with
  | kick uid => exact h
  | start uid => exact h
  | broker handle => exact h.congr rfl rfl rfl rfl rfl fun _ => ⟨rfl, rfl⟩
  | close =>
    by_cases hopen : 0 ≤ g.listen_id
    · simp only [GateState.ctrl, if_pos hopen]
      exact h.congr rfl rfl rfl rfl rfl fun _ => ⟨rfl, rfl⟩
    · simp only [GateState.ctrl, if_neg hopen]
      exact h
  | forward id agent client =>
    show Inv (g.forwardAgent id agent client) pend
    unfold GateState.forwardAgent
    cases hi : g.lookup id with
    | none => exact h
    | some i =>
      simp only
      refine h.congr rfl rfl rfl rfl rfl ?_
      intro j
      show (update g.conn i _ j).buffer = _ ∧ (update g.conn i _ j).id = _
      by_cases hj : j = i
      · subst hj
        rw [update_self]
        exact ⟨rfl, rfl⟩
      · rw [update_of_ne hj]
        exact ⟨rfl, rfl⟩

/-- The nodes of a closed connection go back to the pool. -/
theorem inv_closed {id : Int} (h : Inv g pend) (hcb : g.closed id = some (out, g')) : ∃ pend', Inv g' pend' := by
  unfold GateState.closed at hcb
  cases hr : g.hash.remove id with
  | none =>
    rw [hr] at hcb
    cases hcb
    exact ⟨pend, h⟩
  | some x =>
    obtain ⟨i, hash⟩ := x
    obtain ⟨ns, fs, hframed, -, hone⟩ := h.buffers.one i
    obtain ⟨mp', fs', hclear, hlinks, hmoves⟩ := clear_spec hframed.links
    obtain ⟨hwf, hid, hgone, hother⟩ := HashId.remove_spec h.hash hr
    rw [hr] at hcb
    simp only [hclear, Option.map_some] at hcb
    obtain ⟨-, rfl⟩ := Prod.mk.inj (Option.some.inj hcb)
    have hinit : Framed mp' DataBuffer.init [] fs' := ⟨⟨hlinks, Or.inl rfl, rfl⟩, by decide⟩
    refine ⟨update pend i [], hwf, h.header_size, h.client_tag, h.watchdog, ?_, ?_, ?_⟩
    · show Buffers mp' (fun j => (update g.conn i .free j).buffer) _
      rw [buffer_update]
      exact hone mp' .init [] fs' hinit hmoves
    · intro fd j hj
      have hj' : hash.lookup fd = some j := hj
      have hne : fd ≠ id := by
        rintro rfl
        rw [hgone] at hj'
        cases hj'
      rw [hother fd hne] at hj'
      have hji : j ≠ i := by
        rintro rfl
        exact hne (HashId.lookup_inj h.hash hj' hid)
      show (update g.conn i .free j).id = fd ∧ _
      rw [update_of_ne hji]
      exact h.id fd j hj'
    · exact h.cut_update rfl

theorem inv_accept {id ud : Int} {name : Bytes} (h : Inv g pend)
    (henv : Env g (.socket (.accept id ud name)))
    (hcb : g.dispatchSocketMessage (.accept id ud name) = some (out, g')) : Inv g' pend := by
  obtain ⟨hpos, hlt, hnew⟩ := henv
  unfold GateState.dispatchSocketMessage at hcb
  simp only at hcb
  split at hcb
  · cases hcb
  · split at hcb
    · cases hcb
      exact h
    · obtain ⟨⟨i, hash⟩, hinsert, heq⟩ := Option.map_eq_some_iff.1 hcb
      obtain ⟨-, rfl⟩ := Prod.mk.inj heq
      obtain ⟨hwf, hid, hfree, hother⟩ := HashId.insert_spec h.hash (by omega) hnew hinsert
      refine ⟨hwf, h.header_size, h.client_tag, h.watchdog, ?_, ?_, h.cut⟩
      · show Buffers g.mp (fun j => (update g.conn i _ j).buffer) _
        rw [buffer_update]
        show Buffers g.mp (update (fun j => (g.conn j).buffer) i (g.conn i).buffer) _
        rw [update_eq_self i fun j => (g.conn j).buffer]
        exact h.buffers
      · intro fd j hj
        have hj' : hash.lookup fd = some j := hj
        show (update g.conn i _ j).id = fd ∧ _
        by_cases hfd : fd = ud
        · subst hfd
          rw [hid] at hj'
          cases hj'
          rw [update_self]
          exact ⟨rfl, hpos, hlt⟩
        · rw [hother fd hfd] at hj'
          have hji : j ≠ i := by
            rintro rfl
            exact hfree fd hj'
          rw [update_of_ne hji]
          exact h.id fd j hj'

/-- Every message leaves the pool and the buffers in order. -/
theorem inv_cb {m : Msg} (h : Inv g pend) (henv : Env g m) (hcb : g.cb m = some (out, g')) :
    ∃ pend', Inv g' pend' := by
  cases m with
  | text c =>
    obtain ⟨rfl, rfl⟩ := Prod.mk.inj (Option.some.inj hcb)
    exact ⟨pend, inv_ctrl h c⟩
  | client source msg =>
    obtain ⟨-, rfl⟩ := Prod.mk.inj (Option.some.inj hcb)
    exact ⟨pend, h⟩
  | socket message =>
    change g.dispatchSocketMessage message = some (out, g') at hcb
    cases message with
    | data id buffer =>
      unfold GateState.dispatchSocketMessage at hcb
      simp only at hcb
      split at hcb
      · rename_i i _
        obtain ⟨ps, rest, g₁, hdispatch, hinv, -⟩ := @dispatchMessage_spec g pend i id buffer h henv
        rw [hdispatch] at hcb
        obtain ⟨-, rfl⟩ := Prod.mk.inj (Option.some.inj hcb)
        exact ⟨_, hinv⟩
      · cases hcb
        exact ⟨pend, h⟩
    | connect id =>
      unfold GateState.dispatchSocketMessage at hcb
      simp only at hcb
      split at hcb <;> cases hcb <;> exact ⟨pend, h⟩
    | close id => exact inv_closed h hcb
    | error id => exact inv_closed h hcb
    | accept id ud name => exact ⟨pend, inv_accept h henv hcb⟩
    | warning id ud =>
      cases hcb
      exact ⟨pend, h⟩

theorem Reachable.inv (h : Reachable g) : ∃ pend, Inv g pend := by
  induction h with
  | launch watchdog listen_id max hw => exact ⟨_, inv_launch watchdog listen_id max hw⟩
  | step _ henv hcb ih =>
    obtain ⟨pend, hinv⟩ := ih
    exact inv_cb hinv henv hcb

end

theorem Reachable.next {g : GateState} {m : Msg} (h : Reachable g) (henv : Env g m) : Reachable (g.next m) := by
  unfold GateState.next
  cases hcb : g.cb m with
  | none => exact h
  | some x => exact .step h henv hcb

/-- The connection `fd` has the agent `agent`, and nothing pending. -/
def GateState.Forwarded (g : GateState) (fd agent : Nat) : Prop :=
  ∃ i, g.lookup fd = some i ∧ (g.conn i).agent = agent ∧ agent ≠ 0 ∧ (g.conn i).buffer.size = 0 ∧
    (g.conn i).buffer.header = 0

theorem Inv.pend_eq_nil {g : GateState} {pend : Nat → Bytes} {i : Nat} (h : Inv g pend)
    (hsize : (g.conn i).buffer.size = 0) (hheader : (g.conn i).buffer.header = 0) : pend i = [] := by
  obtain ⟨nodes, fs, hframed, -⟩ := h.buffers
  obtain ⟨hf, hpend⟩ := hframed i
  have hsize' := hf.size
  rw [hsize] at hsize'
  rw [← hpend]
  unfold pending
  rw [if_pos hheader, List.eq_nil_of_length_eq_zero hsize'.symm]
  rfl

/-- Between two chunks there is less than one frame in a buffer: its `int` sizes are small numbers. -/
theorem Inv.size_le {g : GateState} {pend : Nat → Bytes} (h : Inv g pend) (i : Nat) :
    (g.conn i).buffer.size ≤ 65536 := by
  obtain ⟨nodes, fs, hframed, -⟩ := h.buffers
  obtain ⟨hf, hpend⟩ := hframed i
  have hpending := length_of_unframe (h.cut i)
  rw [← hpend] at hpending
  unfold pending at hpending
  rw [List.length_append, ← hf.size] at hpending
  exact Nat.le_trans (Nat.le_add_left _ _) hpending

/-! ## Chunks of many connections -/

/-- What is for `fd` in a list of things for many connections. -/
def lane {β : Type} (fd : Nat) (l : List (Nat × β)) : List β := (l.filter fun x => x.1 = fd).map Prod.snd

section

variable {β : Type} {fd k : Nat}

@[simp] theorem lane_nil : lane fd ([] : List (Nat × β)) = [] := rfl

theorem lane_cons_self (x : β) (l : List (Nat × β)) : lane fd ((fd, x) :: l) = x :: lane fd l := by
  simp [lane]

theorem lane_cons_ne (h : k ≠ fd) (x : β) (l : List (Nat × β)) : lane fd ((k, x) :: l) = lane fd l := by
  simp [lane, h]

theorem lane_eq_nil {l : List (Nat × β)} (h : ∀ x ∈ l, x.1 ≠ fd) : lane fd l = [] := by
  have hnil : l.filter (fun x => x.1 = fd) = [] := by
    apply List.filter_eq_nil_iff.2
    intro x hx
    simpa using h x hx
  unfold lane
  rw [hnil]
  rfl

theorem lane_append (l l' : List (Nat × β)) : lane fd (l ++ l') = lane fd l ++ lane fd l' := by
  simp [lane]

/-- Choosing connections chooses lanes. -/
theorem lane_filter (P : Nat → Prop) [DecidablePred P] (l : List (Nat × β)) :
    lane fd (l.filter fun x => P x.1) = if P fd then lane fd l else [] := by
  induction l with
  | nil => simp
  | cons y l ih =>
    obtain ⟨k, x⟩ := y
    by_cases hk : k = fd
    · subst hk
      by_cases hp : P k
      · rw [List.filter_cons_of_pos (by simpa using hp), lane_cons_self, lane_cons_self, ih, if_pos hp, if_pos hp]
      · rw [List.filter_cons_of_neg (by simpa using hp), ih, if_neg hp, if_neg hp]
    · rw [lane_cons_ne hk]
      by_cases hp : P k
      · rw [List.filter_cons_of_pos (by simpa using hp), lane_cons_ne hk, ih]
      · rw [List.filter_cons_of_neg (by simpa using hp), ih]

theorem lane_map_self (xs : List β) : lane fd (xs.map fun x => (fd, x)) = xs := by
  induction xs with
  | nil => rfl
  | cons x xs ih => rw [List.map_cons, lane_cons_self, ih]

theorem lane_map_ne (h : k ≠ fd) (xs : List β) : lane fd (xs.map fun x => (k, x)) = [] := by
  apply lane_eq_nil
  intro y hy
  obtain ⟨x, -, rfl⟩ := List.mem_map.1 hy
  exact h

end

theorem SameRoutes.sends_connOf {g g' : GateState} (h : SameRoutes g g') (fd : Nat) (p : Bytes) :
    envelope g' (g'.connOf fd) p = envelope g (g.connOf fd) p := by
  unfold GateState.connOf
  rw [h.lookup]
  exact h.sends _ p

/-- **The gate undoes the cutting.** For every connection, what it sent behind what was pending is the messages that
are passed on for it, each with its length, and what is pending then. -/
theorem run_data {g : GateState} {pend : Nat → Bytes} (h : Inv g pend) {chunks : List (Nat × Bytes)}
    (hc : ∀ c ∈ chunks, c.2 ≠ [] ∧ (g.lookup c.1).isSome) :
    ∃ (sent : List (Nat × Bytes)) (g' : GateState) (pend' : Nat → Bytes),
      g.run (chunks.map fun c => .socket (.data c.1 c.2)) =
        some ((sent.filter fun x => x.2 ≠ []).map fun x => envelope g (g.connOf x.1) x.2, g') ∧
      Inv g' pend' ∧ (∀ x ∈ sent, x.2.length < 65536 ∧ ∃ c ∈ chunks, c.1 = x.1) ∧
      ∀ (fd : Nat) (i : Nat), g.lookup fd = some i →
        pend i ++ (lane fd chunks).flatten = frames (lane fd sent) ++ pend' i := by
  induction chunks generalizing g pend with
  | nil =>
    refine ⟨[], g, pend, rfl, h, by simp, ?_⟩
    intro fd i _
    simp
  | cons c chunks ih =>
    obtain ⟨fd, data⟩ := c
    obtain ⟨hdata, hopen⟩ := hc _ List.mem_cons_self
    obtain ⟨i, hi⟩ := Option.isSome_iff_exists.1 hopen
    obtain ⟨ps, rest, g₁, hdispatch, hinv, hroutes, hstream, hps⟩ := @dispatchMessage_spec g pend i fd data h hdata
    have hc₁ : ∀ c ∈ chunks, c.2 ≠ [] ∧ (g₁.lookup c.1).isSome := by
      intro c hmem
      rw [hroutes.lookup]
      exact hc c (List.mem_cons_of_mem _ hmem)
    obtain ⟨sent, g', pend', hrun, hinv', hsent, hlanes⟩ := ih hinv hc₁
    refine ⟨ps.map (fun p => (fd, p)) ++ sent, g', pend', ?_, hinv', ?_, ?_⟩
    · have hcb : g.cb (.socket (.data fd data)) =
          some ((ps.filter (· ≠ [])).map (envelope g (g.conn i)), g₁) := by
        show g.dispatchSocketMessage (.data fd data) = _
        unfold GateState.dispatchSocketMessage
        simp only [hi]
        exact hdispatch
      have hown : g.connOf fd = g.conn i := by
        unfold GateState.connOf
        rw [hi]
        rfl
      have hfirst : ((ps.map fun p => (fd, p)).filter fun x => x.2 ≠ []).map (fun x => envelope g (g.connOf x.1) x.2) =
          (ps.filter (· ≠ [])).map (envelope g (g.conn i)) := by
        rw [List.filter_map, List.map_map, ← hown]
        rfl
      rw [List.map_cons]
      unfold GateState.run
      simp only [hcb, Option.bind_some, hrun]
      rw [List.filter_append, List.map_append, hfirst]
      simp only [hroutes.sends_connOf]
      rfl
    · intro x hx
      rcases List.mem_append.1 hx with hx | hx
      · obtain ⟨p, hp, rfl⟩ := List.mem_map.1 hx
        exact ⟨hps p hp, _, List.mem_cons_self, rfl⟩
      · obtain ⟨hlt, c, hmem, hfd⟩ := hsent x hx
        exact ⟨hlt, c, List.mem_cons_of_mem _ hmem, hfd⟩
    · intro k j hj
      have hlane := hlanes k j (by rw [hroutes.lookup]; exact hj)
      rw [lane_append]
      by_cases hk : fd = k
      · subst hk
        obtain rfl : i = j := Option.some.inj (hi.symm.trans hj)
        rw [update_self] at hlane
        rw [lane_cons_self, lane_map_self, frames_append, List.append_assoc, ← hlane, ← List.append_assoc, ← hstream]
        simp
      · have hji : j ≠ i := by
          rintro rfl
          exact hk (by exact_mod_cast HashId.lookup_inj h.hash hi hj)
        rw [update_of_ne hji] at hlane
        rw [lane_cons_ne hk, lane_map_ne hk, hlane]
        rfl

end RoundGame.Gate
