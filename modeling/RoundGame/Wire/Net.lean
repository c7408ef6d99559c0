import Mathlib.Data.List.Nodup
import RoundGame.Lib.Framing

/-!
# Messages on the wire

A message is its number, two bytes in little-endian order, and its fields as `protobuf` encodes them. `net.lua` packs
and sends the messages of the server, and takes apart those of the clients; `robot.lua` does the same from the other
side. `netfind` finds the numbers by the names and back, in tables that `netdefines.lua` fills entry by entry.

With distinct numbers, taking apart what was packed gives it back (`unpackBody_body`).
-/

namespace RoundGame.Wire

open Framing

/-- One message of `netdefines.lua`. -/
structure ProtoDef where
  sModule : String
  sMessage : String
  iProto : Nat

/-- The messages of one direction, in the order in which they are entered; a later entry replaces an earlier one. -/
abbrev Defines := List ProtoDef

def findProtoByName (l : Defines) (sMessage : String) : Option Nat :=
  (l.reverse.find? fun d => d.sMessage = sMessage).map ProtoDef.iProto

def findProtoByIndex (l : Defines) (iProto : Nat) : Option (String × String) :=
  (l.reverse.find? fun d => d.iProto = iProto).map fun d => (d.sModule, d.sMessage)

def c2gsDefines : Defines :=
  [⟨"login", "C2GSSelectRole", 1001⟩, ⟨"login", "C2GSCreateRole", 1000⟩, ⟨"login", "C2GSLoginAccount", 1002⟩]

def gs2cDefines : Defines :=
  [⟨"login", "GS2CSelectRole", 1000⟩, ⟨"login", "GS2CHello", 1001⟩, ⟨"login", "GS2CLoginError", 1002⟩,
    ⟨"player", "GS2CLoginFinish", 2000⟩, ⟨"player", "GS2CRefreshPlayerProp", 2001⟩, ⟨"iteam", "GS2CItemList", 3000⟩]

/-- `protobuf.encode` and `protobuf.decode`, for messages with fields of type `α`. -/
structure Protobuf (α : Type) where
  encode : String → α → Except String Bytes
  decode : String → Bytes → Except String α

/-- Decoding is inverse to encoding. -/
def Protobuf.Inverse {α : Type} (pb : Protobuf α) : Prop :=
  ∀ sMessage mData sData, pb.encode sMessage mData = .ok sData → pb.decode sMessage sData = .ok mData

/-- `string.pack(">s2", s)`. -/
def packS2 (s : Bytes) : Except String Bytes :=
  if s.length < 65536 then .ok (frame s)
  else .error "bad argument #2 to 'pack' (string length does not fit in given size)"

section

variable {α : Type} (pb : Protobuf α) (l : Defines)

/-- The number of a message and its fields, in bytes. -/
def body (iProto : Nat) (sData : Bytes) : Bytes := le 2 iProto ++ sData

/-- `M.PackData` of `net.lua`, with the messages of the server, and `c2s_package` of `robot.lua`, with those of the
client. -/
def packData (sMessage : String) (mData : α) : Except String Bytes := do
  let sData ← pb.encode sMessage mData
  match findProtoByName l sMessage with
  | none => .error ("can't find message" ++ sMessage)
  | some iProto => packS2 (body iProto sData)

/-- The data of the `client` message that `M.Send` sends to the gate of the connection `iFd`. -/
def send (iFd : Nat) (sMessage : String) (mData : α) : Except String Bytes := do
  let sData ← packData pb l sMessage mData
  return sData ++ le 4 iFd

/-- The module, the message and the fields of a message without its length. -/
def unpackBody (buff : Bytes) : Except String (String × String × α) := do
  if buff.length < 2 then .error "attempt to perform bitwise operation on a nil value"
  else
    match findProtoByIndex l (ofLe (buff.take 2)) with
    | none => .error "bad argument #1 to 'unpack' (table expected, got nil)"
    | some (sModule, sMessage) =>
      let mData ← pb.decode sMessage (buff.drop 2)
      return (sModule, sMessage, mData)

/-- The handler of the `gate` messages in `M.dispatch_net`: the connection, and what `netcmd.Invoke` is given. -/
def dispatchGate (sData : Bytes) : Except String (Nat × String × String × α) := do
  if sData.length < 4 then .error "attempt to perform bitwise operation on a nil value"
  else
    let m ← unpackBody pb l (sData.drop 4)
    return (ofLe (sData.take 4), m)

end

/-! ## Packing and taking apart -/

variable {α : Type} {pb : Protobuf α} {l : Defines}

/-- With distinct numbers, the number of a name is that of an entry with this name only. -/
theorem findProtoByIndex_of_name (hnum : (l.map ProtoDef.iProto).Nodup) {sMessage : String} {iProto : Nat}
    (h : findProtoByName l sMessage = some iProto) :
    ∃ sModule, findProtoByIndex l iProto = some (sModule, sMessage) := by
  obtain ⟨d, hd, rfl⟩ := Option.map_eq_some_iff.1 h
  have hmem : d ∈ l := List.mem_reverse.1 (List.mem_of_find?_eq_some hd)
  have hname := List.find?_some hd
  simp only [decide_eq_true_eq] at hname
  refine ⟨d.sModule, ?_⟩
  unfold findProtoByIndex
  cases hf : l.reverse.find? fun e => e.iProto = d.iProto with
  | none =>
    have hno := List.find?_eq_none.1 hf d (List.mem_reverse.2 hmem)
    simp at hno
  | some e =>
    have hnumber := List.find?_some hf
    simp only [decide_eq_true_eq] at hnumber
    have hmem' : e ∈ l := List.mem_reverse.1 (List.mem_of_find?_eq_some hf)
    obtain rfl : e = d := List.inj_on_of_nodup_map hnum hmem' hmem hnumber
    rw [← hname]
    rfl

theorem iProto_of_name {sMessage : String} {iProto : Nat} (h : findProtoByName l sMessage = some iProto) :
    ∃ d ∈ l, d.iProto = iProto := by
  obtain ⟨d, hd, rfl⟩ := Option.map_eq_some_iff.1 h
  exact ⟨d, List.mem_reverse.1 (List.mem_of_find?_eq_some hd), rfl⟩

theorem packData_ok {sMessage : String} {mData : α} {iProto : Nat} {sData : Bytes}
    (hname : findProtoByName l sMessage = some iProto) (henc : pb.encode sMessage mData = .ok sData)
    (hlen : sData.length ≤ 65533) : packData pb l sMessage mData = .ok (frame (body iProto sData)) := by
  have hbody : (body iProto sData).length < 65536 := by
    unfold body
    rw [List.length_append, length_le]
    omega
  unfold packData
  rw [henc]
  simp only [hname]
  exact if_pos hbody

/-- What packing a message takes and gives. -/
theorem packData_eq_ok {sMessage : String} {mData : α} {out : Bytes} (h : packData pb l sMessage mData = .ok out) :
    ∃ iProto sData, findProtoByName l sMessage = some iProto ∧ pb.encode sMessage mData = .ok sData ∧
      (body iProto sData).length < 65536 ∧ out = frame (body iProto sData) := by
  unfold packData at h
  cases he : pb.encode sMessage mData with
  | error e => rw [he] at h; cases h
  | ok sData =>
    rw [he] at h
    cases hn : findProtoByName l sMessage with
    | none => simp only [hn] at h; cases h
    | some iProto =>
      simp only [hn] at h
      change packS2 (body iProto sData) = .ok out at h
      unfold packS2 at h
      split at h
      · rename_i hlen
        exact ⟨iProto, sData, rfl, rfl, hlen, (Except.ok.inj h).symm⟩
      · cases h

/-- Taking a message apart gives back what was packed. -/
theorem unpackBody_body (hpb : pb.Inverse) (hnum : (l.map ProtoDef.iProto).Nodup)
    (hlt : ∀ d ∈ l, d.iProto < 65536) {sMessage : String} {mData : α} {iProto : Nat} {sData : Bytes}
    (hname : findProtoByName l sMessage = some iProto) (henc : pb.encode sMessage mData = .ok sData) :
    ∃ sModule, findProtoByIndex l iProto = some (sModule, sMessage) ∧
      unpackBody pb l (body iProto sData) = .ok (sModule, sMessage, mData) := by
  obtain ⟨sModule, hindex⟩ := findProtoByIndex_of_name hnum hname
  obtain ⟨d, hd, rfl⟩ := iProto_of_name hname
  have hlen : ¬ (body d.iProto sData).length < 2 := by
    unfold body
    rw [List.length_append, length_le]
    omega
  have htake : (body d.iProto sData).take 2 = le 2 d.iProto := by
    unfold body
    rw [List.take_left' (length_le 2 _)]
  have hdrop : (body d.iProto sData).drop 2 = sData := by
    unfold body
    rw [List.drop_left' (length_le 2 _)]
  refine ⟨sModule, hindex, ?_⟩
  unfold unpackBody
  rw [if_neg hlen, htake, hdrop, ofLe_le (by simpa using hlt d hd), hindex]
  simp only [hpb sMessage mData sData henc]
  rfl

/-- The frames `ps` carry the messages `msgs`. -/
def Carry (pb : Protobuf α) (l : Defines) (ps : List Bytes) (msgs : List (String × α)) : Prop :=
  List.Forall₂ (fun p m => p.length < 65536 ∧ ∃ sModule, unpackBody pb l p = .ok (sModule, m.1, m.2)) ps msgs

theorem Carry.mem {ps : List Bytes} {msgs : List (String × α)} (h : Carry pb l ps msgs) :
    ∀ p ∈ ps, p.length < 65536 ∧ p ≠ [] := by
  induction h with
  | nil => exact fun p hp => by cases hp
  | cons hpm _ ih =>
    intro p hp
    rcases List.mem_cons.1 hp with rfl | hp
    · obtain ⟨hlen, sModule, hun⟩ := hpm
      refine ⟨hlen, ?_⟩
      rintro rfl
      cases hun
    · exact ih p hp

/-- Fields that are bytes already. -/
def rawBytes : Protobuf Bytes := ⟨fun _ mData => .ok mData, fun _ sData => .ok sData⟩

theorem rawBytes_inverse : rawBytes.Inverse := by
  intro sMessage mData sData h
  rw [← Except.ok.inj h]
  rfl

end RoundGame.Wire
