import Mathlib.Data.Nat.Bitwise
import RoundGame.Lib.StepSys
import RoundGame.Lib.Threads
import RoundGame.Skynet.Handle
import RoundGame.Skynet.MessageQueue

/-!
# Services and workers

The threads of `skynet_start.c` and the functions of `skynet_server.c` that they execute: a worker takes a queue from
the global queue, dispatches some of its messages to the service, and goes on with the next queue; any code of a service
may send messages, retire services and create new ones meanwhile.

A thread is a stack of frames, one for each call that is being executed. What is done under a lock, or by one atomic
instruction, is one step; the steps of the threads interleave in any order. The code of a service and the threads that
are not workers make calls in any order (`Frame.calls`).

`crash` is set where an assertion fails and where a context or a queue is used that was freed, but for the creator of a
service, which writes `ctx->init` and logs the launch when it has given its reference back (`Frame.setInit`,
`Frame.launch`). Messages to other harbors, log files and the monitor are left out. A context has a number, its queue
has the same, and `pushed`, `taken` and `dropped` are the history of the queue.

That a new service is registered, gets its handle and gets its queue is one step here (`Server.new`). In the code these
are three, and the lock of the handles is free between them: a table that grows then files the context under the handle
0, and a message that is sent then is pushed to a queue that is not there yet.
-/

namespace RoundGame.Skynet

open Function

def PTYPE_ERROR : Nat := 7

structure Message (δ : Type) where
  source : Nat
  session : Int
  type : Nat
  /-- `none` for `NULL`. -/
  data : Option δ
  deriving DecidableEq

instance (δ : Type) : Inhabited (Message δ) := ⟨⟨0, 0, 0, none⟩⟩

/-- `skynet_context`. -/
structure Context where
  handle : Nat
  ref : Nat
  init : Bool
  /-- Whether `skynet_callback` was called. -/
  cb : Bool
  freed : Bool

structure Service (δ : Type) where
  ctx : Context
  queue : MessageQueue (Message δ)
  /-- Whether the queue was freed. -/
  freed : Bool
  pushed : List (Message δ)
  taken : List (Message δ)
  dropped : List (Message δ)

/-- What a thread is executing. -/
inductive Frame (δ : Type)
  /-- Code that is not a part of a service. -/
  | env
  /-- The loop of `thread_worker`. -/
  | top (q : Option Nat)
  /-- The loop of `skynet_context_message_dispatch` with the context `c`: the next message is popped. -/
  | pop (q c i n : Nat)
  | length (q c : Nat) (msg : Message δ)
  | trigger (q c i n : Nat) (msg : Message δ)
  /-- The callback of a service. -/
  | callback (q c i n : Nat) (msg : Message δ)
  /-- After the loop: the next queue is popped, and the present one is pushed back. -/
  | swap (q c : Nat)
  | pushBack (q c nq : Nat)
  | release (c : Nat)
  /-- `delete_context`: first the module releases its instance. -/
  | delete (c : Nat)
  | mqRelease (q : Nat)
  /-- The loop of `_drop_queue`. -/
  | drop (q : Nat)
  /-- `skynet_context_push`, with a reference to `c`. -/
  | send (c : Nat) (msg : Message δ)
  /-- `skynet_context_new`: the module initializes its instance, and what follows when this succeeds or fails. -/
  | init (c : Nat)
  | initOk (c : Nat)
  | setInit (c : Nat)
  | launch (c : Nat)
  | initFail (c : Nat)
  | failRetire (c : Nat)
  deriving DecidableEq

/-- Code that makes calls of its own. -/
def Frame.calls {δ : Type} : Frame δ → Bool
  | .env | .callback .. | .delete _ | .init _ => true
  | _ => false

structure Server (δ : Type) where
  handles : HandleStorage Nat
  global : GlobalQueue
  service : Nat → Service δ
  /-- The number of contexts that were created. -/
  count : Nat
  thread : List (List (Frame δ))
  weight : Nat → Int
  crash : Bool

namespace Server

variable {δ : Type}

def check (s : Server δ) (b : Bool) : Server δ := { s with crash := s.crash || !b }

def setService (s : Server δ) (c : Nat) (sv : Service δ) : Server δ := { s with service := update s.service c sv }

def setContext (s : Server δ) (c : Nat) (ctx : Context) : Server δ :=
  s.setService c { s.service c with ctx }

def globalPush (s : Server δ) (q : Nat) : Server δ :=
  match s.global.push q with
  | some global => { s with global }
  | none => s.check false

def globalPop (s : Server δ) : Option Nat × Server δ :=
  match s.global.pop with
  | some (q, global) => (q, { s with global })
  | none => (none, s.check false)

/-- `skynet_mq_push`. -/
def mqPush (s : Server δ) (c : Nat) (msg : Message δ) : Server δ :=
  let sv := s.service c
  let (global, queue) := sv.queue.push msg
  let s := (s.check (!sv.freed)).setService c { sv with queue, pushed := sv.pushed ++ [msg] }
  if global then s.globalPush c else s

/-- `skynet_mq_mark_release`. -/
def markRelease (s : Server δ) (c : Nat) : Server δ :=
  let sv := s.service c
  let (global, queue) := sv.queue.markRelease
  let s := (s.check (!sv.freed && !sv.queue.release)).setService c { sv with queue }
  if global then s.globalPush c else s

/-- `skynet_context_grab`, with the lock of the handles still held. -/
def grabContext (s : Server δ) (c : Nat) : Server δ :=
  let ctx := (s.service c).ctx
  (s.check (!ctx.freed)).setContext c { ctx with ref := ctx.ref + 1 }

/-- The decrement of `skynet_context_release`: whether it was the last reference. -/
def decrement (s : Server δ) (c : Nat) : Bool × Server δ :=
  let ctx := (s.service c).ctx
  (ctx.ref - 1 = 0, (s.check (!ctx.freed && ctx.ref ≠ 0)).setContext c { ctx with ref := ctx.ref - 1 })

def releaseFrames (last : Bool) (c : Nat) : List (Frame δ) := if last then [.delete c] else []

/-- The head of the loop of `skynet_context_message_dispatch`, for the `i`-th of `n` messages. -/
def dispatchLoop (q c i n : Nat) : Frame δ := if i < n then .pop q c i n else .swap q c

/-- A handle is looked up, and the context that is found gets a reference: the frames that go on with it. -/
def grab (s : Server δ) (handle : Nat) (found : Nat → List (Frame δ)) (missing : List (Frame δ)) :
    List (Frame δ) × Server δ :=
  match s.handles.grab handle with
  | some c => (found c, s.grabContext c)
  | none => (missing, s)

/-- `skynet_handle_retire`, up to the release of the context. -/
def retire (s : Server δ) (handle : Nat) (rest : List (Frame δ)) : List (Frame δ) × Server δ :=
  match s.handles.retire handle with
  | (some c, handles) => (.release c :: rest, { s with handles })
  | (none, handles) => (rest, { s with handles })

/-- `skynet_context_new`, up to the initialization of the module: `skynet_handle_register`, the assignment of
`ctx->handle` and `skynet_mq_create`. -/
def new (s : Server δ) : List (Frame δ) × Server δ :=
  match s.handles.register s.count with
  | some (handle, handles) =>
    ([.init s.count], { s.setService s.count
      { ctx := ⟨handle, 2, false, false, false⟩, queue := .create handle, freed := false
        pushed := [], taken := [], dropped := [] } with
      handles
      count := s.count + 1 })
  | none => ([], s.check false)

/-- `drop_message`: an error to the source of a message that is dropped. -/
def dropMessage (s : Server δ) (q : Nat) (msg : Message δ) : List (Frame δ) × Server δ :=
  let source := (s.service q).queue.handle
  let s := s.check (source ≠ 0)
  if msg.source = 0 then ([.drop q], s)
  else s.grab msg.source (fun c => [.send c ⟨source, 0, PTYPE_ERROR, none⟩, .drop q]) [.drop q]

/-- The step of the top frame: what replaces it. -/
def go (s : Server δ) (weight : Int) : Frame δ → List (Frame δ) × Server δ
  | .env => ([.env], s)
  | .top none =>
    let (q, s) := s.globalPop
    ([.top q], s)
  | .top (some q) =>
    let s := s.check (!(s.service q).freed)
    s.grab (s.service q).queue.handle (fun c => [.pop q c 0 1]) [.mqRelease q, .top none]
  | .pop q c i n =>
    let sv := s.service q
    let s := s.check (!sv.freed)
    match sv.queue.pop with
    | (none, queue) => ([.release c, .top none], s.setService q { sv with queue })
    | (some msg, queue) =>
      let s := s.setService q { sv with queue, taken := sv.taken ++ [msg] }
      (if i = 0 ∧ 0 ≤ weight then [.length q c msg] else [.trigger q c i n msg], s)
  | .length q c msg =>
    ([.trigger q c 0 ((s.service q).queue.length >>> weight.toNat) msg], s.check (!(s.service q).freed))
  | .trigger q c i n msg =>
    let sv := s.service q
    let s := (s.check (!sv.freed)).setService q { sv with queue := sv.queue.takeOverload.2 }
    let ctx := (s.service c).ctx
    if ctx.cb then ([.callback q c i n msg], s.check (!ctx.freed && ctx.init))
    else ([dispatchLoop q c (i + 1) n], s.check (!ctx.freed))
  | .callback q c i n _ => ([dispatchLoop q c (i + 1) n], s)
  | .swap q c =>
    match (s.check (q = c)).globalPop with
    | (some nq, s) => ([.pushBack q c nq], s)
    | (none, s) => ([.release c, .top (some q)], s)
  | .pushBack q c nq => ([.release c, .top (some nq)], (s.check (!(s.service q).freed)).globalPush q)
  | .release c =>
    let (last, s) := s.decrement c
    (releaseFrames last c, s)
  | .delete c =>
    let s := (s.check (!(s.service c).ctx.freed)).markRelease c
    ([], s.setContext c { (s.service c).ctx with freed := true })
  | .mqRelease q =>
    let sv := s.service q
    let s := s.check (!sv.freed)
    if sv.queue.release then ([.drop q], s) else ([], s.globalPush q)
  | .drop q =>
    let sv := s.service q
    let s := s.check (!sv.freed)
    match sv.queue.pop with
    | (some msg, queue) => (s.setService q { sv with queue, dropped := sv.dropped ++ [msg] }).dropMessage q msg
    | (none, queue) => ([], (s.check (s.global.next q).isNone).setService q { sv with queue, freed := true })
  | .send c msg => ([.release c], (s.check (!(s.service c).ctx.freed)).mqPush c msg)
  | .init c => ([.init c], s)
  | .initOk c =>
    let (last, s) := s.decrement c
    (if last then [.delete c, .launch c] else [.setInit c], s)
  | .setInit c => ([.launch c], s.setContext c { (s.service c).ctx with init := true })
  | .launch c => ([], (s.check (!(s.service c).freed)).globalPush c)
  | .initFail c =>
    let (last, s) := s.decrement c
    (releaseFrames last c ++ [.failRetire c], s)
  | .failRetire c => s.retire (s.service c).ctx.handle [.mqRelease c]

/-- What a thread does next. -/
inductive Act (δ : Type)
  /-- The code of the top frame; a callback or the module returns. -/
  | go
  /-- The module has initialized its instance, or failed to. -/
  | initialized (ok : Bool)
  | send (handle : Nat) (msg : Message δ)
  | exit (handle : Nat)
  | new
  | callback

/-- The frames that replace the top frame. A call is put on top of the frame that makes it. -/
def act (s : Server δ) (weight : Int) (f : Frame δ) : Act δ → Option (List (Frame δ) × Server δ)
  | .go => some (s.go weight f)
  | .initialized ok => match f with
    | .init c => some ([if ok then .initOk c else .initFail c], s)
    | _ => none
  | .send handle msg => if f.calls then some (s.grab handle (fun c => [.send c msg, f]) [f]) else none
  | .exit handle => if f.calls then some (s.retire handle [f]) else none
  | .new =>
    if f.calls then
      let (fs, s) := s.new
      some (fs ++ [f], s)
    else none
  | .callback => match f with
    | .init c | .callback _ c .. => some ([f], s.setContext c { (s.service c).ctx with cb := true })
    | _ => none

/-- A step of the thread `t`. -/
def step (s : Server δ) (e : Nat × Act δ) : Option (Server δ) :=
  match s.thread[e.1]? with
  | some (f :: st) =>
    (s.act (s.weight e.1) f e.2).map fun r => { r.2 with thread := s.thread.set e.1 (r.1 ++ st) }
  | _ => none

/-- The threads before the first step: workers, and others. -/
def start (harbor : Nat) (worker : List Bool) (weight : Nat → Int) : Server δ :=
  { handles := .init harbor, global := .init
    service := fun _ => ⟨⟨0, 0, false, false, true⟩, .create 0, true, [], [], []⟩
    count := 0
    thread := worker.map fun b => [if b then .top none else .env]
    weight
    crash := false }

end Server

end RoundGame.Skynet
