import Mathlib.Algebra.Ring.Int.Defs
import RoundGame.Lib.Outbox

/-!
# A socket of the socket server

`socket_server.c`: what the socket thread does with one of the slots, for sockets of TCP. What the kernel answers to the
calls of the thread is an argument of the functions; `none` is a failed assertion.

A slot has more than the C struct. `polled` and `writing` are what the event poll has for the file descriptor, `wire` is
what the kernel took of what was written to it, `bound` whether it came with `bind_socket`. `taken` are the packages
that `send_socket` did not turn away, since the slot was filled. Of all packages that were ever for the slot, `done` are
those that were written whole, `lost` those that were freed when the socket was closed, and `refused` those that were
freed without having been taken.

`high` and `low` are the lists as sequences, without the pointers. So the assertions on `tail` and its `next` in
`append_sendbuffer` and on `tail` in `check_wb_list` are not part of the model.
-/

namespace RoundGame.Skynet.SocketServer

open Outbox

def MIN_READ_BUFFER : Nat := 64

inductive SocketType
  | invalid
  | reserve
  | plisten
  | listen
  | connecting
  | connected
  | halfclose
  | paccept
  | bind
  deriving DecidableEq

inductive Priority
  | high
  | low
  deriving DecidableEq

/-- What `request_send` names. A user object has a negative size there, and its bytes are not where it is. -/
structure Package (β : Type) where
  address : Nat
  bytes : List β
  priority : Priority
  userobject : Bool

/-- `pos` is `ptr`, from the start of the bytes. -/
abbrev WriteBuffer (β : Type) := Outbox.Part (Package β)

structure Socket (β : Type) where
  handle : Nat
  high : List (WriteBuffer β)
  low : List (WriteBuffer β)
  wbSize : Int
  id : Nat
  type : SocketType
  size : Nat
  polled : Bool
  writing : Bool
  bound : Bool
  wire : List β
  taken : List (Package β)
  done : List (Package β)
  lost : List (Package β)
  refused : List (Package β)

inductive Report (β : Type)
  | data (id handle : Nat) (bytes : List β)
  | close (id handle : Nat)
  | opened (id handle : Nat)
  | accept (id handle ud : Nat)
  | error (id handle : Nat)

/-- What `write` answers: how many bytes the kernel takes, if it has so many, or an error. -/
inductive Answer
  | took (n : Nat)
  | intr
  | again
  | error

/-- What `read` answers; no bytes when there are none left. -/
inductive Read (β : Type)
  | bytes (l : List β)
  | intr
  | again
  | error

/-- How far `open_socket` comes: no address or no connection, no room in the event poll, a connection at once or
later. -/
inductive Connect
  | failed
  | full
  | connected
  | progress
  deriving DecidableEq

variable {β : Type}

def WriteBuffer.sz (wb : WriteBuffer β) : Nat := wb.item.bytes.length - wb.pos

/-- What `send_list_tcp` leaves: the list, the bytes that were written and the packages that were written whole, the
answers that were not needed, and whether there was an error. -/
structure Sent (β : Type) where
  list : List (WriteBuffer β)
  wire : List β
  done : List (Package β)
  answers : List Answer
  failed : Bool

/-- The loops of `send_list_tcp`. After the last answer the kernel takes no more. -/
def sendListTcp : List Answer → List (WriteBuffer β) → Sent β
  | answers, [] => ⟨[], [], [], answers, false⟩
  | [], wbs => ⟨wbs, [], [], [], false⟩
  | .intr :: answers, wbs => sendListTcp answers wbs
  | .again :: answers, wbs => ⟨wbs, [], [], answers, false⟩
  | .error :: answers, wbs => ⟨wbs, [], [], answers, true⟩
  | .took n :: answers, wb :: wbs =>
    let sz := min n wb.sz
    if sz ≠ wb.sz then ⟨⟨wb.item, wb.pos + sz⟩ :: wbs, (wb.rest Package.bytes).take sz, [], answers, false⟩
    else
      let r := sendListTcp answers wbs
      { r with wire := wb.rest Package.bytes ++ r.wire, done := wb.item :: r.done }

def listUncomplete : List (WriteBuffer β) → Bool
  | [] => false
  | wb :: _ => wb.pos ≠ 0 ∨ wb.item.userobject

namespace Socket

def empty : Socket β :=
  ⟨0, [], [], 0, 0, .invalid, 0, false, false, false, [], [], [], [], []⟩

def forceClose (s : Socket β) : Option (Socket β) :=
  if s.type = .invalid then some s
  else if s.type = .reserve then none
  else
    let pending := s.type = .paccept ∨ s.type = .plisten
    some { s with
      lost := s.lost ++ items (s.high ++ s.low)
      high := []
      low := []
      polled := pending ∧ s.polled
      writing := pending ∧ s.writing
      type := .invalid }

/-- `add` is what `sp_add` answers, if it is called; `none` inside when it fails. -/
def newFd (s : Socket β) (id handle : Nat) (add : Option Bool) : Option (Socket β × Bool) :=
  if s.type ≠ .reserve then none
  else if add = some false then some ({ s with type := .invalid }, false)
  else if s.high ≠ [] ∨ s.low ≠ [] then none
  else some ({ s with
      id := id
      handle := handle
      size := MIN_READ_BUFFER
      wbSize := 0
      polled := add.isSome
      writing := false
      bound := false
      wire := []
      taken := [] }, true)

def lane (s : Socket β) : Priority → List (WriteBuffer β)
  | .high => s.high
  | .low => s.low

def setLane (s : Socket β) (p : Priority) (l : List (WriteBuffer β)) : Socket β :=
  match p with
  | .high => { s with high := l }
  | .low => { s with low := l }

/-- Whether `send_list` returns `SOCKET_CLOSE`, and the answers that are left. -/
def sendList (s : Socket β) (p : Priority) (answers : List Answer) : Option (Socket β × Bool × List Answer) :=
  let r := sendListTcp answers (s.lane p)
  let s := { s.setLane p r.list with
    wbSize := s.wbSize - r.wire.length
    wire := s.wire ++ r.wire
    done := s.done ++ r.done }
  if r.failed then s.forceClose.map fun s => (s, true, r.answers) else some (s, false, r.answers)

def raiseUncomplete (s : Socket β) : Option (Socket β) :=
  match s.low, s.high with
  | wb :: low, [] => some { s with low := low, high := [wb] }
  | _, _ => none

/-- Whether `send_buffer` returns `SOCKET_CLOSE`. -/
def sendBuffer (s : Socket β) (answers : List Answer) : Option (Socket β × Bool) :=
  if listUncomplete s.low then none
  else
    match s.sendList .high answers with
    | none => none
    | some (s, true, _) => some (s, true)
    | some (s, false, answers) =>
      if s.high ≠ [] then some (s, false)
      else if s.low ≠ [] then
        match s.sendList .low answers with
        | none => none
        | some (s, true, _) => some (s, true)
        | some (s, false, _) =>
          if listUncomplete s.low then s.raiseUncomplete.map fun s => (s, false) else some (s, false)
      else
        let s := { s with writing := false }
        if s.type = .halfclose then s.forceClose.map fun s => (s, true) else some (s, false)

/-- `append_sendbuffer` and `append_sendbuffer_low`, for a package of which `n` bytes are written. -/
def appendSendbuffer (s : Socket β) (p : Priority) (package : Package β) (n : Nat) : Socket β :=
  let buf : WriteBuffer β := ⟨package, n⟩
  { s.setLane p (s.lane p ++ [buf]) with wbSize := s.wbSize + buf.sz }

def sendBufferEmpty (s : Socket β) : Bool := s.high = [] ∧ s.low = []

def refuse (s : Socket β) (package : Package β) : Socket β := { s with refused := s.refused ++ [package] }

/-- `send_socket`; the answer is for the `write` of a package that needs no buffer. -/
def sendSocket (s : Socket β) (id : Nat) (package : Package β) (answer : Answer) :
    Option (Socket β × Option (Report β)) :=
  if s.type = .invalid ∨ s.id ≠ id ∨ s.type = .halfclose ∨ s.type = .paccept then some (s.refuse package, none)
  else if s.type = .plisten ∨ s.type = .listen then some (s.refuse package, none)
  else
    let s := { s with taken := s.taken ++ [package] }
    if s.sendBufferEmpty ∧ s.type = .connected then
      match answer with
      | .error =>
        s.forceClose.map fun s => ({ s with lost := s.lost ++ [package] }, some (.close s.id s.handle))
      | answer =>
        let n := match answer with
          | .took n => min n package.bytes.length
          | _ => 0
        let s := { s with wire := s.wire ++ package.bytes.take n }
        if n = package.bytes.length then some ({ s with done := s.done ++ [package] }, none)
        else some ({ s.appendSendbuffer .high package n with writing := true }, none)
    else some (s.appendSendbuffer package.priority package 0, none)

def closeSocket (s : Socket β) (id handle : Nat) (shutdown : Bool) (answers : List Answer) :
    Option (Socket β × Option (Report β)) :=
  if s.type = .invalid ∨ s.id ≠ id then some (s, some (.close id handle))
  else
    match if s.sendBufferEmpty then some (s, false) else s.sendBuffer answers with
    | none => none
    | some (s, true) => some (s, some (.close s.id s.handle))
    | some (s, false) =>
      if shutdown ∨ s.sendBufferEmpty then s.forceClose.map fun s => (s, some (.close id handle))
      else some ({ s with type := .halfclose }, none)

def openSocket (s : Socket β) (id handle : Nat) (answer : Connect) : Option (Socket β × Option (Report β)) :=
  if answer = .failed then some ({ s with type := .invalid }, some (.error id handle))
  else
    match s.newFd id handle (some (answer ≠ .full)) with
    | none => none
    | some (s, false) => some ({ s with type := .invalid }, some (.error id handle))
    | some (s, true) =>
      if answer = .connected then some ({ s with type := .connected }, some (.opened id handle))
      else some ({ s with type := .connecting, writing := true }, none)

def listenSocket (s : Socket β) (id handle : Nat) : Option (Socket β × Option (Report β)) :=
  (s.newFd id handle none).map fun r => ({ r.1 with type := .plisten }, none)

def bindSocket (s : Socket β) (id handle : Nat) (add : Bool) : Option (Socket β × Option (Report β)) :=
  match s.newFd id handle (some add) with
  | none => none
  | some (s, false) => some (s, some (.error id handle))
  | some (s, true) => some ({ s with type := .bind, bound := true }, some (.opened id handle))

def startSocket (s : Socket β) (id handle : Nat) (add : Bool) : Option (Socket β × Option (Report β)) :=
  if s.type = .invalid ∨ s.id ≠ id then some (s, some (.error id handle))
  else if s.type = .paccept ∨ s.type = .plisten then
    if add then
      some ({ s with
          polled := true
          type := if s.type = .paccept then .connected else .listen
          handle := handle }, some (.opened id handle))
    else s.forceClose.map fun s => (s, some (.error s.id s.handle))
  else if s.type = .connected then some ({ s with handle := handle }, some (.opened id handle))
  else some (s, none)

def reportConnect (s : Socket β) (ok : Bool) : Option (Socket β × Option (Report β)) :=
  if ok then
    some ({ s with type := .connected, writing := if s.sendBufferEmpty then false else s.writing },
      some (.opened s.id s.handle))
  else s.forceClose.map fun s => (s, some (.error s.id s.handle))

def forwardMessageTcp (s : Socket β) (answer : Read β) : Option (Socket β × Option (Report β)) :=
  match answer with
  | .intr => some (s, none)
  | .again => some (s, none)
  | .error => s.forceClose.map fun s => (s, some (.error s.id s.handle))
  | .bytes [] => s.forceClose.map fun s => (s, some (.close s.id s.handle))
  | .bytes l =>
    if s.type = .halfclose then some (s, none)
    else
      let n := l.length
      let size :=
        if n = s.size then s.size * 2
        else if s.size > MIN_READ_BUFFER ∧ n * 2 < s.size then s.size / 2
        else s.size
      some ({ s with size := size }, some (.data s.id s.handle l))

end Socket

end RoundGame.Skynet.SocketServer
