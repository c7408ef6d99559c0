import RoundGame.Gate.ServiceGate
import RoundGame.Wire.Net

/-!
# The receiving side of a client

`robot.lua` keeps the bytes of an unfinished message in `last`. `recv_package` first looks for a message in it, then
asks the socket once and looks again; `check_receive_msg` takes messages until there is none, and `check_socket_io`
calls it again and again. The answers of `socket.recv` are a list: a chunk, the empty chunk when the server has closed
the connection, `none` when there is nothing to read.

However the stream is cut, the robot gets the messages that were sent, in their order: a prefix of them at any time,
and all of them when every answer of the socket was taken (`to_client`).
-/

namespace RoundGame.Wire

open Framing Gate

structure Robot where
  last : Bytes
  inbox : List (Option Bytes)
  /-- after `os.exit()` -/
  exited : Bool

namespace Robot

/-- `robot:unpack_package`: a message without its length, and the rest of the text. -/
def unpackPackage (text : Bytes) : Option Bytes × Bytes :=
  match text with
  | a :: b :: l =>
    let s := a.toNat * 256 + b.toNat
    if text.length < s + 2 then (none, text) else (some (l.take s), l.drop s)
  | _ => (none, text)

/-- `robot:recv_package` -/
def recvPackage (r : Robot) : Option Bytes × Robot :=
  match unpackPackage r.last with
  | (some result, last) => (some result, { r with last := last })
  | (none, last) =>
    match r.inbox with
    | [] => (none, { r with last := last })
    | none :: inbox => (none, { r with last := last, inbox := inbox })
    | some [] :: inbox => (none, { last := last, inbox := inbox, exited := true })
    | some (b :: chunk) :: inbox =>
      let (result, last) := unpackPackage (last ++ b :: chunk)
      (result, { r with last := last, inbox := inbox })

variable {α : Type} (pb : Protobuf α) (l : Defines)

/-- `robot:check_receive_msg`: the messages that are handled. An error ends the loop, and `safe_call` catches it. -/
def checkReceiveMsg : Nat → Robot → Option (List (String × α) × Robot)
  | 0, _ => none
  | fuel + 1, r =>
    match recvPackage r with
    | (none, r') => some ([], r')
    | (some buff, r') =>
      match unpackBody pb l buff with
      | .error _ => some ([], r')
      | .ok (_, message, args) =>
        (checkReceiveMsg fuel r').map fun (handled, r'') => ((message, args) :: handled, r'')

/-- The bytes the robot has and will be given. -/
def bytes (r : Robot) : Bytes := r.last ++ (r.inbox.filterMap id).flatten

/-- `robot:check_socket_io`, for `n` rounds. A message takes two bytes at least. -/
def checkSocketIo : Nat → Robot → Option (List (String × α) × Robot)
  | 0, r => some ([], r)
  | n + 1, r =>
    if r.exited then some ([], r)
    else
      (checkReceiveMsg pb l (r.bytes.length + 1) r).bind fun (handled, r') =>
        (checkSocketIo n r').map fun (handled', r'') => (handled ++ handled', r'')

/-! ## What is received -/

variable {pb l} {r r' : Robot} {ps : List Bytes} {msgs : List (String × α)}

theorem unpackPackage_eq (text : Bytes) :
    unpackPackage text = match unframe text with
      | none => (none, text)
      | some (p, rest) => (some p, rest) := by
  match text with
  | [] => rfl
  | [_] => rfl
  | a :: b :: t =>
    simp only [unpackPackage, unframe, List.length_cons, Nat.add_lt_add_iff_right]
    split <;> rfl

/-- The connection is open, and the server does not close it. -/
structure Open (r : Robot) : Prop where
  exited : r.exited = false
  inbox : some [] ∉ r.inbox

/-- Either a message is taken off the bytes of the robot, or an answer of the socket is taken, if there is one. -/
theorem recvPackage_spec (h : Open r) :
    ∃ r', Open r' ∧
      ((∃ p, recvPackage r = (some p, r') ∧ r.bytes = frame p ++ r'.bytes ∧ p.length < 65536 ∧
          r'.inbox.length ≤ r.inbox.length) ∨
        recvPackage r = (none, r') ∧ r'.bytes = r.bytes ∧ unframe r'.last = none ∧ r'.inbox = r.inbox.tail) := by
  obtain ⟨last, inbox, exited⟩ := r
  obtain rfl : exited = false := h.exited
  have hinbox : some [] ∉ inbox := h.inbox
  unfold recvPackage
  simp only [unpackPackage_eq]
  cases hl : unframe last with
  | some x =>
    obtain ⟨p, rest⟩ := x
    obtain ⟨hlast, hlt⟩ := eq_of_unframe hl
    refine ⟨⟨rest, inbox, false⟩, ⟨rfl, hinbox⟩, Or.inl ⟨p, rfl, ?_, hlt, Nat.le_refl _⟩⟩
    unfold bytes
    rw [hlast, List.append_assoc]
  | none =>
    match inbox, hinbox with
    | [], hinbox => exact ⟨⟨last, [], false⟩, ⟨rfl, hinbox⟩, Or.inr ⟨rfl, rfl, hl, rfl⟩⟩
    | none :: inbox, hinbox =>
      have htail : some [] ∉ inbox := fun hmem => hinbox (List.mem_cons_of_mem _ hmem)
      exact ⟨⟨last, inbox, false⟩, ⟨rfl, htail⟩, Or.inr ⟨rfl, rfl, hl, rfl⟩⟩
    | some [] :: inbox, hinbox => exact absurd List.mem_cons_self hinbox
    | some (b :: chunk) :: inbox, hinbox =>
      have htail : some [] ∉ inbox := fun hmem => hinbox (List.mem_cons_of_mem _ hmem)
      have hbytes : bytes ⟨last, some (b :: chunk) :: inbox, false⟩ =
          (last ++ b :: chunk) ++ (inbox.filterMap id).flatten := by
        simp [bytes]
      cases hl' : unframe (last ++ b :: chunk) with
      | some x =>
        obtain ⟨p, rest⟩ := x
        obtain ⟨htext, hlt⟩ := eq_of_unframe hl'
        refine ⟨⟨rest, inbox, false⟩, ⟨rfl, htail⟩, Or.inl ⟨p, ?_, ?_, hlt, Nat.le_succ _⟩⟩
        · simp only [hl']
        · rw [hbytes, htext, List.append_assoc]
          rfl
      | none =>
        refine ⟨⟨last ++ b :: chunk, inbox, false⟩, ⟨rfl, htail⟩, Or.inr ⟨?_, ?_, hl', rfl⟩⟩
        · simp only [hl']
        · rw [hbytes]
          rfl

/-- One call of `check_receive_msg` handles the first messages, and takes an answer of the socket, if there is one. -/
theorem checkReceiveMsg_spec {fuel : Nat} (h : Open r) (hfuel : r.bytes.length < fuel) (hc : Carry pb l ps msgs)
    (hbytes : r.bytes = frames ps) :
    ∃ handled rest r' qs, checkReceiveMsg pb l fuel r = some (handled, r') ∧ msgs = handled ++ rest ∧ Open r' ∧
      Carry pb l qs rest ∧ r'.bytes = frames qs ∧ unframe r'.last = none ∧
      r'.inbox.length ≤ r.inbox.length - 1 := by
  induction fuel generalizing r ps msgs with
  | zero => cases hfuel
  | succ fuel ih =>
    obtain ⟨r', hopen, ⟨p, hr, hp, hlt, hlen⟩ | ⟨hr, hsame, hnone, htail⟩⟩ := recvPackage_spec h
    · cases hc with
      | nil =>
        rw [hbytes] at hp
        simp [frame, be16] at hp
      | cons hpm hc =>
        rename_i q m ps msgs
        obtain ⟨hq, sModule, hun⟩ := hpm
        have hfirst : some (q, frames ps) = some (p, r'.bytes) := by
          rw [← unframe_append hq, ← unframe_append hlt, ← hp, hbytes, frames_cons]
        obtain ⟨rfl, hrest⟩ := Prod.mk.inj (Option.some.inj hfirst)
        have hshort : r'.bytes.length < fuel := by
          rw [hp] at hfuel
          simp [frame, be16] at hfuel
          omega
        obtain ⟨handled, rest, r'', qs, hcheck, hmsgs, hopen', hc', hbytes', hnone, hlen'⟩ :=
          ih hopen hshort hc hrest.symm
        refine ⟨m :: handled, rest, r'', qs, ?_, by rw [hmsgs]; rfl, hopen', hc', hbytes', hnone, by omega⟩
        unfold checkReceiveMsg
        simp only [hr, hun, hcheck]
        rfl
    · refine ⟨[], msgs, r', ps, ?_, rfl, hopen, hc, hsame.trans hbytes, hnone, ?_⟩
      · unfold checkReceiveMsg
        rw [hr]
      · rw [htail, List.length_tail]

/-- After `n` rounds the first messages are handled, and after as many rounds as there are answers, all of them. -/
theorem checkSocketIo_spec {n : Nat} (h : Open r) (hc : Carry pb l ps msgs) (hbytes : r.bytes = frames ps)
    (hlast : unframe r.last = none) :
    ∃ handled rest r', checkSocketIo pb l n r = some (handled, r') ∧ msgs = handled ++ rest ∧
      (r.inbox.length ≤ n → rest = []) := by
  induction n generalizing r ps msgs with
  | zero =>
    refine ⟨[], msgs, r, rfl, rfl, ?_⟩
    intro hn
    have hinbox : r.inbox = [] := List.eq_nil_of_length_eq_zero (Nat.le_zero.1 hn)
    have hall : frames ps = frames [] ++ r.last := by
      rw [← hbytes]
      simp [bytes, hinbox]
    obtain ⟨rfl, -⟩ := frames_inj (by simp) (fun p hp => (hc.mem p hp).1) hall hlast
    exact List.forall₂_nil_left_iff.1 hc
  | succ n ih =>
    obtain ⟨handled, rest, r', qs, hcheck, hmsgs, hopen, hc', hbytes', hnone, hlen⟩ :=
      checkReceiveMsg_spec h (Nat.lt_succ_self _) hc hbytes
    obtain ⟨handled', rest', r'', hio, hmsgs', hend⟩ := ih hopen hc' hbytes' hnone
    refine ⟨handled ++ handled', rest', r'', ?_, ?_, fun hn => hend (by omega)⟩
    · unfold checkSocketIo
      rw [h.exited]
      simp [hcheck, hio]
    · rw [hmsgs, hmsgs', List.append_assoc]

end Robot

/-! ## From the server to the client -/

/-- The gate writes what stands before the id of an open connection to this connection. -/
theorem cb_client {g : GateState} {fd : Nat} (hfd : fd < 2 ^ 31) (hopen : (g.lookup fd).isSome) (source : Nat)
    {b : Bytes} (hb : b ≠ []) : g.cb (.client source (b ++ le 4 fd)) = some ([.socketSend fd b], g) := by
  have hpos : 0 < b.length := List.length_pos_of_ne_nil hb
  have hlen : (b ++ le 4 fd).length = b.length + 4 := by simp
  have hid : Int.bmod (ofLe (le 4 fd)) (2 ^ 32) = fd := by
    rw [ofLe_le (by omega)]
    exact Int.bmod_eq_of_le (by omega) (by omega)
  show some (g.clientMessage source (b ++ le 4 fd), g) = _
  unfold GateState.clientMessage
  rw [if_neg (by omega), hlen, Nat.add_sub_cancel, List.drop_left, List.take_left]
  simp only [hid, if_pos hopen]

variable {α : Type} {pb : Protobuf α} {l : Defines}

/-- What the messages `msgs` are on the wire. -/
theorem carry_frames (hpb : pb.Inverse) (hnum : (l.map ProtoDef.iProto).Nodup) (hlt : ∀ d ∈ l, d.iProto < 65536)
    (fd : Nat) {msgs : List (String × α)}
    (hmsgs : ∀ m ∈ msgs, ∃ iProto sData, findProtoByName l m.1 = some iProto ∧ pb.encode m.1 m.2 = .ok sData ∧
      sData.length ≤ 65533) :
    ∃ ps, msgs.mapM (fun m => send pb l fd m.1 m.2) = .ok (ps.map fun p => frame p ++ le 4 fd) ∧
      Carry pb l ps msgs := by
  induction msgs with
  | nil => exact ⟨[], rfl, .nil⟩
  | cons m msgs ih =>
    obtain ⟨iProto, sData, hname, henc, hlen⟩ := hmsgs m List.mem_cons_self
    obtain ⟨ps, hps, hc⟩ := ih fun k hk => hmsgs k (List.mem_cons_of_mem _ hk)
    obtain ⟨sModule, -, hun⟩ := unpackBody_body hpb hnum hlt hname henc
    refine ⟨body iProto sData :: ps, ?_, .cons ⟨?_, sModule, hun⟩ hc⟩
    · rw [List.mapM_cons, hps]
      unfold send
      rw [packData_ok hname henc hlen]
      rfl
    · unfold body
      rw [List.length_append, length_le]
      omega

/-- **Messages of the server arrive.** The gate writes exactly the packed messages, to exactly the connection they were
sent to; and however this stream is cut into answers of the socket, the client handles exactly the messages sent, in
their order: the first of them after any number of rounds, and all after as many rounds as there are answers. -/
theorem to_client (hpb : pb.Inverse) (hnum : (l.map ProtoDef.iProto).Nodup) (hlt : ∀ d ∈ l, d.iProto < 65536)
    {fd : Nat} (hfd : fd < 2 ^ 31) {msgs : List (String × α)}
    (hmsgs : ∀ m ∈ msgs, ∃ iProto sData, findProtoByName l m.1 = some iProto ∧ pb.encode m.1 m.2 = .ok sData ∧
      sData.length ≤ 65533) :
    ∃ sent written : List Bytes, msgs.mapM (fun m => send pb l fd m.1 m.2) = .ok sent ∧
      (∀ (g : GateState) (source : Nat), (g.lookup fd).isSome →
        sent.map (fun s => g.cb (.client source s)) = written.map fun b => some ([.socketSend fd b], g)) ∧
      ∀ inbox : List (Option Bytes), some [] ∉ inbox → (inbox.filterMap id).flatten = written.flatten →
        ∀ n, ∃ handled rest r, Robot.checkSocketIo pb l n ⟨[], inbox, false⟩ = some (handled, r) ∧
          msgs = handled ++ rest ∧ (inbox.length ≤ n → rest = []) := by
  obtain ⟨ps, hsend, hc⟩ := carry_frames hpb hnum hlt fd hmsgs
  refine ⟨_, ps.map frame, hsend, ?_, ?_⟩
  · intro g source hopen
    rw [List.map_map, List.map_map]
    apply List.map_congr_left
    intro p _
    exact cb_client hfd hopen source (by simp [frame, be16])
  · intro inbox hinbox hbytes n
    have hstream : Robot.bytes ⟨[], inbox, false⟩ = frames ps := by
      unfold Robot.bytes
      rw [hbytes, frames, List.flatMap_def]
      rfl
    exact Robot.checkSocketIo_spec ⟨rfl, hinbox⟩ hc hstream rfl

/-- A `timestamp` of 7, and an `errcode` of 1. -/
theorem to_client_hello :
    ∃ sent written : List Bytes,
      [("GS2CHello", [0x08, 7]), ("GS2CLoginError", [0x08, 1])].mapM (fun m => send rawBytes gs2cDefines 5 m.1 m.2) =
        .ok sent ∧
      (∀ (g : GateState) (source : Nat), (g.lookup (5 : Nat)).isSome →
        sent.map (fun s => g.cb (.client source s)) = written.map fun b => some ([.socketSend (5 : Nat) b], g)) ∧
      ∀ inbox : List (Option Bytes), some [] ∉ inbox → (inbox.filterMap id).flatten = written.flatten →
        ∀ n, ∃ handled rest r, Robot.checkSocketIo rawBytes gs2cDefines n ⟨[], inbox, false⟩ = some (handled, r) ∧
          [("GS2CHello", [0x08, 7]), ("GS2CLoginError", [0x08, 1])] = handled ++ rest ∧
            (inbox.length ≤ n → rest = []) := by
  apply to_client rawBytes_inverse (by decide) (by decide) (by decide)
  intro m hm
  simp only [List.mem_cons, List.not_mem_nil, or_false] at hm
  rcases hm with rfl | rfl
  · exact ⟨1001, [0x08, 7], by decide, rfl, by decide⟩
  · exact ⟨1002, [0x08, 1], by decide, rfl, by decide⟩

end RoundGame.Wire
