import RoundGame.Gate.Reassembly
import RoundGame.Wire.Net

/-!
# From the clients to the server

A client packs its messages with `c2s_package`, one behind the other. Their bytes come to the gate in chunks, cut
anywhere and mixed with those of other clients. The agent of a connection decodes what the gate passes on.

The agents decode, for every connection, the messages that this client sent, in their order: a prefix of them at any
time, and all of them when all bytes have come (`to_server`).
-/

namespace RoundGame.Wire

open Framing Gate

/-- The `gate` messages that the service `addr` is sent. -/
def received (addr : Nat) (out : List Effect) : List Bytes :=
  out.filterMap fun
    | .send _ dest type msg => if dest = addr ∧ type = PTYPE_SOCKET then some msg else none
    | _ => none

variable {α : Type} {pb : Protobuf α} {l : Defines}

/-- What packed messages are on the wire. -/
theorem carry_packed (hpb : pb.Inverse) (hnum : (l.map ProtoDef.iProto).Nodup) (hlt : ∀ d ∈ l, d.iProto < 65536)
    {msgs : List (String × α)} {packed : List Bytes}
    (h : msgs.mapM (fun m => packData pb l m.1 m.2) = .ok packed) :
    ∃ ps, packed = ps.map frame ∧ Carry pb l ps msgs := by
  induction msgs generalizing packed with
  | nil =>
    cases h
    exact ⟨[], rfl, .nil⟩
  | cons m msgs ih =>
    rw [List.mapM_cons] at h
    cases hp : packData pb l m.1 m.2 with
    | error e => rw [hp] at h; cases h
    | ok out =>
      cases hps : msgs.mapM (fun m => packData pb l m.1 m.2) with
      | error e => rw [hp, hps] at h; cases h
      | ok outs =>
        rw [hp, hps] at h
        cases h
        obtain ⟨iProto, sData, hname, henc, hlen, rfl⟩ := packData_eq_ok hp
        obtain ⟨ps, rfl, hc⟩ := ih hps
        obtain ⟨sModule, -, hun⟩ := unpackBody_body hpb hnum hlt hname henc
        exact ⟨body iProto sData :: ps, rfl, .cons ⟨hlen, sModule, hun⟩ hc⟩

/-- The handler finds the connection and the message. -/
theorem dispatchGate_append {fd : Nat} (hfd : fd < 2 ^ 31) {p : Bytes} {m : String × String × α}
    (h : unpackBody pb l p = .ok m) : dispatchGate pb l (le 4 fd ++ p) = .ok (fd, m) := by
  have htake : (le 4 fd ++ p).take 4 = le 4 fd := List.take_left' (length_le 4 fd)
  have hdrop : (le 4 fd ++ p).drop 4 = p := List.drop_left' (length_le 4 fd)
  have hlen : ¬ (le 4 fd ++ p).length < 4 := by
    rw [List.length_append, length_le]
    omega
  unfold dispatchGate
  rw [if_neg hlen, htake, hdrop, h, ofLe_le (by omega)]
  rfl

/-- When the frames of every connection carry its messages, so do those of all connections together. -/
theorem dispatch_lanes {sent : List (Nat × Bytes)} {msgs : Nat → List (String × α)}
    (hfd : ∀ x ∈ sent, x.1 < 2 ^ 31) (hc : ∀ fd, Carry pb l (lane fd sent) (msgs fd)) :
    ∃ decoded, (sent.map fun x => le 4 x.1 ++ x.2).mapM (dispatchGate pb l) = .ok decoded ∧
      ∀ fd, (lane fd decoded).map Prod.snd = msgs fd := by
  induction sent generalizing msgs with
  | nil =>
    refine ⟨[], rfl, ?_⟩
    intro fd
    exact (List.forall₂_nil_left_iff.1 (hc fd)).symm
  | cons x sent ih =>
    obtain ⟨fd, p⟩ := x
    have hown := hc fd
    rw [lane_cons_self] at hown
    obtain ⟨m, rest, ⟨-, sModule, hun⟩, hrest, hmsgs⟩ := List.forall₂_cons_left_iff.1 hown
    have hc' : ∀ k, Carry pb l (lane k sent) (Function.update msgs fd rest k) := by
      intro k
      by_cases hk : k = fd
      · subst hk
        rw [Function.update_self]
        exact hrest
      · rw [Function.update_of_ne hk, ← lane_cons_ne (Ne.symm hk) p sent]
        exact hc k
    obtain ⟨decoded, hdecoded, hlanes⟩ := ih (fun y hy => hfd y (List.mem_cons_of_mem _ hy)) hc'
    refine ⟨(fd, sModule, m.1, m.2) :: decoded, ?_, ?_⟩
    · rw [List.map_cons, List.mapM_cons, dispatchGate_append (hfd _ List.mem_cons_self) hun, hdecoded]
      rfl
    · intro k
      have hlane := hlanes k
      by_cases hk : k = fd
      · subst hk
        rw [Function.update_self] at hlane
        rw [lane_cons_self, List.map_cons, hlane, hmsgs]
      · rw [Function.update_of_ne hk] at hlane
        rw [lane_cons_ne (Ne.symm hk), hlane]

/-- What an agent is sent, when the frames `sent` are passed on. -/
theorem received_map {g : GateState} (htag : g.client_tag = PTYPE_SOCKET) (hbroker : g.broker = 0)
    {agent : Nat → Nat} {sent : List (Nat × Bytes)} (hne : ∀ x ∈ sent, x.2 ≠ [])
    (hown : ∀ x ∈ sent, (g.connOf x.1).id = x.1 ∧ x.1 < 2 ^ 31 ∧ (g.connOf x.1).agent = agent x.1 ∧ agent x.1 ≠ 0)
    (addr : Nat) :
    received addr ((sent.filter fun x => x.2 ≠ []).map fun x => envelope g (g.connOf x.1) x.2) =
      (sent.filter fun x => agent x.1 = addr).map fun x => le 4 x.1 ++ x.2 := by
  have hall : sent.filter (fun x => x.2 ≠ []) = sent := List.filter_eq_self.2 fun x hx => by simpa using hne x hx
  rw [hall]
  clear hall hne
  induction sent with
  | nil => rfl
  | cons x sent ih =>
    obtain ⟨hid, hlt, hagent, hzero⟩ := hown x List.mem_cons_self
    have henvelope : envelope g (g.connOf x.1) x.2 =
        .send (g.connOf x.1).client (agent x.1) PTYPE_SOCKET (le 4 x.1 ++ x.2) := by
      have hbytes : fdBytes (g.connOf x.1).id = le 4 x.1 := by
        unfold fdBytes
        rw [hid]
        congr 1
        omega
      unfold envelope
      rw [if_neg (by simpa using hbroker), hagent, if_pos hzero, hbytes, htag]
    have hrest := ih fun y hy => hown y (List.mem_cons_of_mem _ hy)
    unfold received at hrest ⊢
    rw [List.map_cons, henvelope, List.filterMap_cons, hrest]
    by_cases ha : agent x.1 = addr
    · rw [List.filter_cons_of_pos (by simpa using ha)]
      simp [ha]
    · rw [List.filter_cons_of_neg (by simpa using ha)]
      simp [ha]

/-- The frames taken off a part of a stream of packed messages carry the first of them, and all of them when nothing is
to come. -/
theorem carry_taken (hpb : pb.Inverse) (hnum : (l.map ProtoDef.iProto).Nodup) (hlt : ∀ d ∈ l, d.iProto < 65536)
    {msgs : List (String × α)} {packed : List Bytes} (hpacked : msgs.mapM (fun m => packData pb l m.1 m.2) = .ok packed)
    {taken : List Bytes} {t rest : Bytes} (htaken : ∀ p ∈ taken, p.length < 65536)
    (hflat : packed.flatten = frames taken ++ t ++ rest) (hcut : unframe t = none) :
    Carry pb l taken (msgs.take taken.length) ∧ (rest = [] → msgs.take taken.length = msgs) := by
  obtain ⟨ps, rfl, hc⟩ := carry_packed hpb hnum hlt hpacked
  rw [← List.flatMap_def] at hflat
  obtain ⟨qs, rfl, hend⟩ := frames_first htaken (fun p hp => (hc.mem p hp).1) hflat hcut
  constructor
  · have htake := List.forall₂_take taken.length hc
    rwa [List.take_left] at htake
  · intro hrest
    have hlen := hc.length_eq
    rw [hend hrest, List.append_nil] at hlen
    exact List.take_of_length_le (Nat.le_of_eq hlen.symm)

/-- What the gate has taken off the bytes of each connection. -/
theorem taken_lane {g g' : GateState} {pend pend' : Nat → Bytes} (hinv : Inv g pend) (hinv' : Inv g' pend')
    {agent : Nat → Nat} {sent chunks : List (Nat × Bytes)} (hchunks : ∀ c ∈ chunks, g.Forwarded c.1 (agent c.1))
    (hsent : ∀ x ∈ sent, ∃ c ∈ chunks, c.1 = x.1)
    (hlanes : ∀ (fd : Nat) (i : Nat), g.lookup fd = some i →
      pend i ++ (lane fd chunks).flatten = frames (lane fd sent) ++ pend' i) (fd : Nat) :
    ∃ t, (lane fd chunks).flatten = frames (lane fd sent) ++ t ∧ unframe t = none := by
  by_cases hmem : ∃ c ∈ chunks, c.1 = fd
  · obtain ⟨c, hc, rfl⟩ := hmem
    obtain ⟨i, hi, -, -, hsize, hheader⟩ := hchunks c hc
    refine ⟨pend' i, ?_, hinv'.cut i⟩
    have hlane := hlanes c.1 i hi
    rwa [hinv.pend_eq_nil hsize hheader, List.nil_append] at hlane
  · have hchunk : ∀ c ∈ chunks, c.1 ≠ fd := fun c hc heq => hmem ⟨c, hc, heq⟩
    have hframe : ∀ x ∈ sent, x.1 ≠ fd := by
      intro x hx heq
      obtain ⟨c, hc, hfd⟩ := hsent x hx
      exact hchunk c hc (hfd.trans heq)
    rw [lane_eq_nil hchunk, lane_eq_nil hframe]
    exact ⟨[], rfl, rfl⟩

/-- The messages that the agents have decoded of every connection are the first of those it sent, and all of them when
all bytes have come. -/
theorem to_server_of (hpb : pb.Inverse) (hnum : (l.map ProtoDef.iProto).Nodup) (hlt : ∀ d ∈ l, d.iProto < 65536)
    {g : GateState} (hg : Reachable g) (hbroker : g.broker = 0) {agent : Nat → Nat}
    {msgs : Nat → List (String × α)} {rest : Nat → Bytes} {chunks : List (Nat × Bytes)}
    (hchunks : ∀ c ∈ chunks, c.2 ≠ [] ∧ g.Forwarded c.1 (agent c.1))
    (hstream : ∀ fd, ∃ packed, (msgs fd).mapM (fun m => packData pb l m.1 m.2) = .ok packed ∧
      packed.flatten = (lane fd chunks).flatten ++ rest fd) :
    ∃ out g', g.run (chunks.map fun c => .socket (.data c.1 c.2)) = some (out, g') ∧
      ∀ addr, ∃ decoded, (received addr out).mapM (dispatchGate pb l) = .ok decoded ∧
        ∀ fd, (agent fd = addr → (lane fd decoded).map Prod.snd <+: msgs fd ∧
            (rest fd = [] → (lane fd decoded).map Prod.snd = msgs fd)) ∧
          (agent fd ≠ addr → lane fd decoded = []) := by
  obtain ⟨pend, hinv⟩ := hg.inv
  have hopen : ∀ c ∈ chunks, c.2 ≠ [] ∧ (g.lookup c.1).isSome := by
    intro c hc
    obtain ⟨hne, i, hi, -⟩ := hchunks c hc
    exact ⟨hne, by rw [hi]; rfl⟩
  obtain ⟨sent, g', pend', hrun, hinv', hsent, hlanes⟩ := run_data hinv hopen
  have hown : ∀ x ∈ sent,
      (g.connOf x.1).id = x.1 ∧ x.1 < 2 ^ 31 ∧ (g.connOf x.1).agent = agent x.1 ∧ agent x.1 ≠ 0 := by
    intro x hx
    obtain ⟨-, c, hc, hfd⟩ := hsent x hx
    obtain ⟨-, i, hi, hagent, hzero, -⟩ := hchunks c hc
    rw [hfd] at hi hagent hzero
    obtain ⟨hid, -, hlt'⟩ := hinv.id _ i hi
    unfold GateState.connOf
    rw [hi]
    exact ⟨hid, by omega, hagent, hzero⟩
  -- the messages that the frames of each connection carry
  let done := fun fd => (msgs fd).take (lane fd sent).length
  have hdone : ∀ fd, Carry pb l (lane fd sent) (done fd) ∧ (rest fd = [] → done fd = msgs fd) := by
    intro fd
    obtain ⟨packed, hpacked, hflat⟩ := hstream fd
    obtain ⟨t, ht, hcut⟩ :=
      taken_lane hinv hinv' (fun c hc => (hchunks c hc).2) (fun x hx => (hsent x hx).2) hlanes fd
    have hlane : ∀ p ∈ lane fd sent, p.length < 65536 := by
      intro p hp
      obtain ⟨x, hx, rfl⟩ := List.mem_map.1 hp
      exact (hsent x (List.mem_of_mem_filter hx)).1
    rw [ht] at hflat
    exact carry_taken hpb hnum hlt hpacked hlane hflat hcut
  have hne : ∀ x ∈ sent, x.2 ≠ [] := by
    intro x hx
    have hmem : x.2 ∈ lane x.1 sent := List.mem_map.2 ⟨x, List.mem_filter.2 ⟨hx, by simp⟩, rfl⟩
    exact ((hdone x.1).1.mem _ hmem).2
  refine ⟨_, g', hrun, ?_⟩
  intro addr
  have hagent : ∀ fd, Carry pb l (lane fd (sent.filter fun x => agent x.1 = addr))
      (if agent fd = addr then done fd else []) := by
    intro fd
    rw [lane_filter fun k => agent k = addr]
    split
    · exact (hdone fd).1
    · exact .nil
  have hlt' : ∀ x ∈ sent.filter (fun x => agent x.1 = addr), x.1 < 2 ^ 31 :=
    fun x hx => (hown x (List.mem_of_mem_filter hx)).2.1
  obtain ⟨decoded, hdecoded, hmsgs⟩ := dispatch_lanes hlt' hagent
  refine ⟨decoded, ?_, ?_⟩
  · rw [received_map hinv.client_tag hbroker hne hown]
    exact hdecoded
  · intro fd
    have hlane := hmsgs fd
    constructor
    · intro hfd
      rw [if_pos hfd] at hlane
      rw [hlane]
      exact ⟨List.take_prefix _ _, (hdone fd).2⟩
    · intro hfd
      rw [if_neg hfd] at hlane
      exact List.map_eq_nil_iff.1 hlane

/-- **Messages of the clients arrive.** However the bytes of the clients are cut and mixed, the agents decode, for every
connection, exactly the messages that its client packed, with its id, in their order: the first of them at any time, and
all when all bytes have come. -/
theorem to_server (hpb : pb.Inverse) (hl : l.Perm c2gsDefines) {g : GateState} (hg : Reachable g)
    (hbroker : g.broker = 0) {agent : Nat → Nat} {msgs : Nat → List (String × α)} {rest : Nat → Bytes}
    {chunks : List (Nat × Bytes)} (hchunks : ∀ c ∈ chunks, c.2 ≠ [] ∧ g.Forwarded c.1 (agent c.1))
    (hstream : ∀ fd, ∃ packed, (msgs fd).mapM (fun m => packData pb l m.1 m.2) = .ok packed ∧
      packed.flatten = (lane fd chunks).flatten ++ rest fd) :
    ∃ out g', g.run (chunks.map fun c => .socket (.data c.1 c.2)) = some (out, g') ∧
      ∀ addr, ∃ decoded, (received addr out).mapM (dispatchGate pb l) = .ok decoded ∧
        ∀ fd, (agent fd = addr → (lane fd decoded).map Prod.snd <+: msgs fd ∧
            (rest fd = [] → (lane fd decoded).map Prod.snd = msgs fd)) ∧
          (agent fd ≠ addr → lane fd decoded = []) := by
  have hnum : (l.map ProtoDef.iProto).Nodup := (hl.map ProtoDef.iProto).nodup_iff.2 (by decide)
  have hlt : ∀ d ∈ l, d.iProto < 65536 := by
    intro d hd
    have hall : ∀ d ∈ c2gsDefines, d.iProto < 65536 := by decide
    exact hall d (hl.mem_iff.1 hd)
  exact to_server_of hpb hnum hlt hg hbroker hchunks hstream

/-- A gate with the connections 5 and 9, both forwarded to the service 11. -/
def twoClients : GateState :=
  ((((GateState.init 'S' 7 1 PTYPE_SOCKET 2).next (.socket (.accept 1 5 []))).next
    (.socket (.accept 1 9 []))).next (.text (.forward 5 11 3))).next (.text (.forward 9 11 3))

theorem twoClients_reachable : Reachable twoClients := by
  unfold twoClients
  refine Reachable.next (Reachable.next (Reachable.next (Reachable.next (.launch 7 1 2 (by decide)) ?_) ?_) ?_) ?_
  · exact ⟨by decide, by decide, by decide⟩
  · exact ⟨by decide, by decide, by decide⟩
  · trivial
  · trivial

/-- One message of each of the two clients, cut into two pieces each: a `pid` of 7, and the `account` "a". -/
theorem to_server_two :
    ∃ out g' decoded,
      twoClients.run ([(5, [0]), (9, [0, 5, 0xEA, 3]), (5, [4, 0xE9, 3, 0x10, 7]), (9, [0x0A, 1, 0x61])].map fun c =>
        .socket (.data (c.1 : Nat) c.2)) = some (out, g') ∧
      (received 11 out).mapM (dispatchGate rawBytes c2gsDefines) = .ok decoded ∧
      (lane 5 decoded).map Prod.snd = [("C2GSSelectRole", [0x10, 7])] ∧
      (lane 9 decoded).map Prod.snd = [("C2GSLoginAccount", [0x0A, 1, 0x61])] := by
  let msgs : Nat → List (String × Bytes) := fun fd =>
    if fd = 5 then [("C2GSSelectRole", [0x10, 7])] else if fd = 9 then [("C2GSLoginAccount", [0x0A, 1, 0x61])] else []
  let chunks : List (Nat × Bytes) :=
    [(5, [0]), (9, [0, 5, 0xEA, 3]), (5, [4, 0xE9, 3, 0x10, 7]), (9, [0x0A, 1, 0x61])]
  have hchunks : ∀ c ∈ chunks, c.2 ≠ [] ∧ twoClients.Forwarded c.1 11 := by
    intro c hc
    simp only [chunks, List.mem_cons, List.not_mem_nil, or_false] at hc
    rcases hc with rfl | rfl | rfl | rfl
    · exact ⟨by decide, 1, rfl, rfl, by decide, rfl, rfl⟩
    · exact ⟨by decide, 0, rfl, rfl, by decide, rfl, rfl⟩
    · exact ⟨by decide, 1, rfl, rfl, by decide, rfl, rfl⟩
    · exact ⟨by decide, 0, rfl, rfl, by decide, rfl, rfl⟩
  have hstream : ∀ fd, ∃ packed, (msgs fd).mapM (fun m => packData rawBytes c2gsDefines m.1 m.2) = .ok packed ∧
      packed.flatten = (lane fd chunks).flatten ++ [] := by
    intro fd
    by_cases h5 : fd = 5
    · subst h5
      exact ⟨[[0, 4, 0xE9, 3, 0x10, 7]], rfl, rfl⟩
    · by_cases h9 : fd = 9
      · subst h9
        exact ⟨[[0, 5, 0xEA, 3, 0x0A, 1, 0x61]], rfl, rfl⟩
      · refine ⟨[], ?_, ?_⟩
        · simp only [msgs, if_neg h5, if_neg h9]
          rfl
        · rw [lane_eq_nil]
          · rfl
          · intro x hx
            simp only [chunks, List.mem_cons, List.not_mem_nil, or_false] at hx
            rcases hx with rfl | rfl | rfl | rfl <;> simp <;> omega
  obtain ⟨out, g', hrun, hdecode⟩ := @to_server Bytes rawBytes c2gsDefines rawBytes_inverse (List.Perm.refl _)
    twoClients twoClients_reachable rfl (fun _ => 11) msgs (fun _ => []) chunks hchunks hstream
  obtain ⟨decoded, hdecoded, hlanes⟩ := hdecode 11
  exact ⟨out, g', decoded, hrun, hdecoded, ((hlanes 5).1 rfl).2 rfl, ((hlanes 9).1 rfl).2 rfl⟩

end RoundGame.Wire
