import RoundGame.Gate.DataBuffer
import RoundGame.Gate.HashId

/-!
# The gate service

`service_gate.c` passes messages between the sockets of the clients and the services. What a socket receives goes into
the buffer of its connection; every complete message in it is sent to the broker, the agent of the connection or the
watchdog. A `client` message of a service is written to the socket whose id its last four bytes are.

A text command is given parsed, and `broker` with the handle that `skynet_queryname` finds.
-/

namespace RoundGame.Gate

open Framing Function

def PTYPE_TEXT : Nat := 0

def PTYPE_SOCKET : Nat := 6

structure Connection where
  id : Int
  agent : Nat
  client : Nat
  remote_name : Bytes
  buffer : DataBuffer

/-- A connection after `memset`, with the id -1. -/
def Connection.free : Connection := ⟨-1, 0, 0, [], .init⟩

structure GateState where
  listen_id : Int
  watchdog : Nat
  broker : Nat
  client_tag : Nat
  header_size : Nat
  hash : HashId
  conn : Nat → Connection
  mp : MessagePool

/-- What the gate does to the services and the sockets. -/
inductive Effect
  /-- `skynet_send` -/
  | send (source dest type : Nat) (msg : Bytes)
  /-- `skynet_socket_send` -/
  | socketSend (id : Int) (msg : Bytes)
  /-- `skynet_socket_close` -/
  | socketClose (id : Int)
  /-- `skynet_socket_start` -/
  | socketStart (id : Int)
  /-- `skynet_error` -/
  | error (text : String)

inductive SocketMessage
  | data (id : Int) (buffer : Bytes)
  | connect (id : Int)
  | close (id : Int)
  | error (id : Int)
  /-- `ud` is the new socket. -/
  | accept (id ud : Int) (name : Bytes)
  | warning (id ud : Int)

inductive Ctrl
  | kick (uid : Int)
  | forward (id : Int) (agent client : Nat)
  | broker (handle : Nat)
  | start (uid : Int)
  | close

inductive Msg
  | text (command : Ctrl)
  | client (source : Nat) (msg : Bytes)
  | socket (message : SocketMessage)

def text (s : String) : Bytes := s.toUTF8.toList

/-- `%x` -/
def hex (n : Nat) : String := String.ofList (Nat.toDigits 16 n)

/-- `fd[0]` to `fd[3]` of `_forward`. -/
def fdBytes (id : Int) : Bytes := le 4 (id % 2 ^ 32).toNat

namespace GateState

/-- `gate_init`, with `max` slots. -/
def init (header : Char) (watchdog listen_id : Nat) (client_tag max : Nat) : GateState :=
  { listen_id := listen_id
    watchdog := watchdog
    broker := 0
    client_tag := client_tag
    header_size := if header = 'S' then 2 else 4
    hash := .init max
    conn := fun _ => .free
    mp := .init }

/-- The connection of a socket. -/
def lookup (g : GateState) (id : Int) : Option Nat := g.hash.lookup id

/-- `_report`. -/
def report (g : GateState) (msg : Bytes) : List Effect :=
  if g.watchdog = 0 then [] else [.send 0 g.watchdog PTYPE_TEXT msg]

/-- `_forward_agent`. -/
def forwardAgent (g : GateState) (fd : Int) (agentaddr clientaddr : Nat) : GateState :=
  match g.lookup fd with
  | none => g
  | some i => { g with conn := update g.conn i { g.conn i with agent := agentaddr, client := clientaddr } }

/-- `_ctrl`. -/
def ctrl (g : GateState) : Ctrl → List Effect × GateState
  | .kick uid => (if (g.lookup uid).isSome then [.socketClose uid] else [], g)
  | .forward id agent client => ([], g.forwardAgent id agent client)
  | .broker handle => ([], { g with broker := handle })
  | .start uid => (if (g.lookup uid).isSome then [.socketStart uid] else [], g)
  | .close => if 0 ≤ g.listen_id then ([.socketClose g.listen_id], { g with listen_id := -1 }) else ([], g)

/-- `_forward`. -/
def forward (g : GateState) (c : Connection) (mp : MessagePool) (size : Nat) :
    Option (List Effect × Connection × MessagePool) :=
  if g.broker ≠ 0 then
    (c.buffer.read mp size).map fun (temp, db, mp) =>
      ([.send 0 g.broker g.client_tag temp], { c with buffer := db }, mp)
  else if c.agent ≠ 0 then
    (c.buffer.read mp size).map fun (temp, db, mp) =>
      ([.send c.client c.agent g.client_tag (fdBytes c.id ++ temp)], { c with buffer := db }, mp)
  else if g.watchdog ≠ 0 then
    (c.buffer.read mp size).map fun (temp, db, mp) =>
      ([.send 0 g.watchdog PTYPE_TEXT (text s!"{c.id} data " ++ temp)], { c with buffer := db }, mp)
  else some ([], c, mp)

/-- The loop of `dispatch_message`. -/
def dispatchLoop (g : GateState) (id : Int) :
    Nat → Connection → MessagePool → Option (List Effect × Connection × MessagePool)
  | 0, _, _ => none
  | fuel + 1, c, mp =>
    (c.buffer.readheader mp g.header_size).bind fun (size, db, mp) =>
      let c := { c with buffer := db }
      if size < 0 then some ([], c, mp)
      else if 0 < size then
        if 0x1000000 ≤ size then
          (c.buffer.clear mp).map fun (db, mp) =>
            ([.socketClose id, .error "Recv socket message > 16M"], { c with buffer := db }, mp)
        else
          (forward g c mp size.toNat).bind fun (out, c, mp) =>
            (dispatchLoop g id fuel { c with buffer := c.buffer.reset } mp).map fun (out', c, mp) =>
              (out ++ out', c, mp)
      else dispatchLoop g id fuel c mp

/-- `dispatch_message`, for the connection in the slot `i`. Two rounds of the loop read a byte at least. -/
def dispatchMessage (g : GateState) (i : Nat) (id : Int) (data : Bytes) : Option (List Effect × GateState) :=
  let c := g.conn i
  (c.buffer.push g.mp data).bind fun (db, mp) =>
    (dispatchLoop g id (2 * db.size + 2) { c with buffer := db } mp).map fun (out, c, mp) =>
      (out, { g with conn := update g.conn i c, mp := mp })

/-- The cases `SKYNET_SOCKET_TYPE_CLOSE` and `SKYNET_SOCKET_TYPE_ERROR`. -/
def closed (g : GateState) (id : Int) : Option (List Effect × GateState) :=
  match g.hash.remove id with
  | none => some ([], g)
  | some (i, hash) =>
    ((g.conn i).buffer.clear g.mp).map fun (_, mp) =>
      (g.report (text s!"{id} close"), { g with hash := hash, conn := update g.conn i .free, mp := mp })

/-- `dispatch_socket_message`. -/
def dispatchSocketMessage (g : GateState) : SocketMessage → Option (List Effect × GateState)
  | .data id buffer =>
    match g.lookup id with
    | some i => dispatchMessage g i id buffer
    | none => some ([.error s!"Drop unknown connection {id} message", .socketClose id], g)
  | .connect id =>
    if id = g.listen_id ∨ (g.lookup id).isSome then some ([], g)
    else some ([.error s!"Close unknown connection {id}", .socketClose id], g)
  | .close id => g.closed id
  | .error id => g.closed id
  | .accept id ud name =>
    if id ≠ g.listen_id then none
    else if g.hash.count = g.hash.cap then some ([.socketClose ud], g)
    else
      (g.hash.insert ud).map fun (i, hash) =>
        let c := { g.conn i with id := ud, remote_name := name.take 31 }
        let opened := text s!"{ud} open {ud} " ++ c.remote_name.takeWhile (· ≠ 0) ++ text ":0"
        (g.report opened ++ [.error s!"socket open: {hex ud.toNat}"],
          { g with hash := hash, conn := update g.conn i c })
  | .warning id ud => some ([.error s!"fd ({id}) send buffer ({ud})K"], g)

/-- The case `PTYPE_CLIENT` of `_cb`: the last four bytes are the socket. -/
def clientMessage (g : GateState) (source : Nat) (msg : Bytes) : List Effect :=
  if msg.length ≤ 4 then [.error s!"Invalid client message from {hex source}"]
  else
    let uid := ofLe (msg.drop (msg.length - 4))
    let id := Int.bmod uid (2 ^ 32)
    if (g.lookup id).isSome then [.socketSend id (msg.take (msg.length - 4))]
    else [.error s!"Invalid client id {id} from {hex source}"]

/-- `_cb`. -/
def cb (g : GateState) : Msg → Option (List Effect × GateState)
  | .text command => some (g.ctrl command)
  | .client source msg => some (g.clientMessage source msg, g)
  | .socket message => g.dispatchSocketMessage message

/-- The gate after a message. -/
def next (g : GateState) (m : Msg) : GateState := ((g.cb m).map Prod.snd).getD g

/-- The messages one after the other. -/
def run : GateState → List Msg → Option (List Effect × GateState)
  | g, [] => some ([], g)
  | g, m :: ms => (g.cb m).bind fun (out, g) => (run g ms).map fun (out', g) => (out ++ out', g)

/-- The connection of the socket `fd`. -/
def connOf (g : GateState) (fd : Nat) : Connection := g.conn ((g.lookup fd).getD 0)

end GateState

end RoundGame.Gate
