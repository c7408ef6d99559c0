import Mathlib.Algebra.Ring.Nat
import Mathlib.Logic.Function.Basic
import RoundGame.Lib.StepSys
import RoundGame.Skynet.Socket

/-!
# The socket server

`socket_server.c`: the slots, the requests of other threads and the loop of the socket thread.

A thread reserves a slot (`reserve_id`) and writes the command that fills it to the pipe; other commands it writes for
ids that it was told of. What a thread is about to write is in `threads`, the ids that threads were told are in `given`.
The socket thread takes the commands off the pipe and looks after the sockets that the event poll reports (`Act`), in
any order; every step may come between any others. A slot is reserved in one step, and a command or an event is one step
with the `clear_closed_event` after it. After a failed assertion there are no more steps (`aborted`).

The counter of ids is kept as the number of times that it went on; the `int` is what `idOf` makes of it.
-/

namespace RoundGame.Skynet.SocketServer

open Function StepSys

def MAX_SOCKET_P : Nat := 16
def MAX_SOCKET : Nat := 1 <<< MAX_SOCKET_P

/-- `HASH_ID` -/
def hashId (id : Nat) : Nat := id % MAX_SOCKET

def idOf (n : Nat) : Nat := n % 2 ^ 31

variable {β : Type}

inductive Cmd (β : Type)
  | start (id handle : Nat)
  | bind (id handle : Nat)
  | listen (id handle : Nat)
  | close (id handle : Nat) (shutdown : Bool)
  | connect (id handle : Nat)
  | send (id : Nat) (package : Package β)

namespace Cmd

def id : Cmd β → Nat
  | start id _ => id
  | bind id _ => id
  | listen id _ => id
  | close id _ _ => id
  | connect id _ => id
  | send id _ => id

/-- A command that fills a slot. -/
def opens : Cmd β → Bool
  | bind _ _ => true
  | listen _ _ => true
  | connect _ _ => true
  | _ => false

end Cmd

/-- What `socket_server_connect`, `socket_server_listen` and `socket_server_bind` write. -/
inductive Opening
  | connect
  | listen
  | bind

def Opening.cmd (id handle : Nat) : Opening → Cmd β
  | connect => .connect id handle
  | listen => .listen id handle
  | bind => .bind id handle

/-- The answers to the calls that a command makes. -/
structure Kernel where
  connect : Connect
  added : Bool
  write : Answer
  answers : List Answer

/-- What `accept` answers: no connection, no file descriptor left, or a connection. -/
inductive Accept
  | failed
  | limit
  | fd

inductive Event (β : Type)
  | connect (ok : Bool)
  | accept (answer : Accept)
  | read (answer : Read β)
  | write (answers : List Answer)

structure Server (β : Type) where
  slot : Nat → Socket β
  allocId : Nat
  threads : List (Cmd β)
  pipe : List (Cmd β)
  given : List Nat
  reports : List (Report β)
  aborted : Bool

/-- The loop of `reserve_id`: whether a slot is free, and the counter. -/
def reserveLoop (slot : Nat → Socket β) : Nat → Nat → Bool × Nat
  | 0, n => (false, n)
  | rounds + 1, n =>
    if (slot (hashId (idOf (n + 1)))).type = .invalid then (true, n + 1) else reserveLoop slot rounds (n + 1)

/-- The branches of `ctrl_cmd`. -/
def Cmd.run (K : Kernel) (s : Socket β) : Cmd β → Option (Socket β × Option (Report β))
  | start id handle => s.startSocket id handle K.added
  | bind id handle => s.bindSocket id handle K.added
  | listen id handle => s.listenSocket id handle
  | close id handle shutdown => s.closeSocket id handle shutdown K.answers
  | connect id handle => s.openSocket id handle K.connect
  | send id package => s.sendSocket id package K.write

inductive Act (β : Type)
  | reserve (o : Opening) (handle : Nat)
  | request (c : Cmd β)
  | write (i : Nat)
  | ctrl (K : Kernel)
  | event (k : Nat) (e : Event β)

namespace Server

def create : Server β := ⟨fun _ => .empty, 0, [], [], [], [], false⟩

def reserveId (S : Server β) : Option Nat × Server β :=
  match reserveLoop S.slot MAX_SOCKET S.allocId with
  | (false, n) => (none, { S with allocId := n })
  | (true, n) =>
    let id := idOf n
    let s := { S.slot (hashId id) with type := .reserve, id := id }
    (some id, { S with allocId := n, slot := update S.slot (hashId id) s })

def onSlot (S : Server β) (k : Nat) (r : Option (Socket β × Option (Report β))) : Server β :=
  match r with
  | none => { S with aborted := true }
  | some (s, report) => { S with slot := update S.slot k s, reports := S.reports ++ report.toList }

def reportAccept (S : Server β) (k : Nat) (answer : Accept) : Server β :=
  let s := S.slot k
  match answer with
  | .failed => S
  | .limit => { S with reports := S.reports ++ [.error s.id s.handle] }
  | .fd =>
    match S.reserveId with
    | (none, S) => S
    | (some id, S) =>
      match (S.slot (hashId id)).newFd id s.handle none with
      | none => { S with aborted := true }
      | some (ns, _) =>
        { S with
          slot := update S.slot (hashId id) { ns with type := .paccept }
          reports := S.reports ++ [.accept s.id s.handle id]
          given := S.given ++ [id] }

/-- An event of `socket_server_poll`. -/
def event (S : Server β) (k : Nat) (e : Event β) : Option (Server β) :=
  let s := S.slot k
  match e with
  | .connect ok => if s.type = .connecting then some (S.onSlot k (s.reportConnect ok)) else none
  | .accept answer => if s.type = .listen then some (S.reportAccept k answer) else none
  | .read answer =>
    if s.type = .connecting ∨ s.type = .listen ∨ s.type = .invalid then none
    else some (S.onSlot k (s.forwardMessageTcp answer))
  | .write answers =>
    if s.type = .connecting ∨ s.type = .listen ∨ s.type = .invalid ∨ s.writing = false then none
    else
      some (S.onSlot k ((s.sendBuffer answers).map fun r => (r.1, if r.2 then some (.close s.id s.handle) else none)))

def perform (S : Server β) : Act β → Option (Server β)
  | .reserve o handle =>
    match S.reserveId with
    | (none, S) => some S
    | (some id, S) => some { S with threads := S.threads ++ [o.cmd id handle] }
  | .request c =>
    if c.id ∈ S.given ∧ c.opens = false then
      match c with
      | .send id package =>
        -- `socket_server_send` and `socket_server_send_lowpriority` free it if there is no such socket
        let s := S.slot (hashId id)
        if s.id ≠ id ∨ s.type = .invalid then some { S with slot := update S.slot (hashId id) (s.refuse package) }
        else some { S with threads := S.threads ++ [c] }
      | c => some { S with threads := S.threads ++ [c] }
    else none
  | .write i =>
    match S.threads[i]? with
    | none => none
    | some c =>
      some { S with
        threads := S.threads.eraseIdx i
        pipe := S.pipe ++ [c]
        given := if c.opens then S.given ++ [c.id] else S.given }
  | .ctrl K =>
    match S.pipe with
    | [] => none
    | c :: pipe => some (onSlot { S with pipe := pipe } (hashId c.id) (c.run K (S.slot (hashId c.id))))
  | .event k e => if (S.slot k).polled then S.event k e else none

def step (S : Server β) (act : Act β) : Option (Server β) := if S.aborted then none else S.perform act

end Server

end RoundGame.Skynet.SocketServer
