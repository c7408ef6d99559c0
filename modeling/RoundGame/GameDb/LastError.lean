import Mathlib.Data.List.Nodup
import Mathlib.Data.List.Perm.Basic
import RoundGame.Lib.StepSys
import RoundGame.GameDb.Store

/-!
# The outcome an insert reports

The requests of gamedb as coroutines over one connection to mongo. `CGameDb:Insert` sends the insert, waits for its
reply, then sends `getLastError` and waits again; `CGameDb:Update` sends the update, which has no reply, and
`getLastError` at once. mongo executes the commands in the order sent, and `getLastError` reports the outcome of
the write executed last.

- `window n log`: how far insert `n` has come in what mongo has executed. Between the insert and its own
  `getLastError` the window is open, and `last` is the outcome of the other request's write executed last in it.
- The flag of request `n` is `last`, and the own outcome only without one. So it is right iff the other request's
  write executed last in the window, if any, had the same outcome (`flag_right_iff`).
-/

namespace RoundGame.GameDb

open StepSys

variable {β : Type}

/-- The requests of gamedb that write. -/
inductive Req (β : Type)
  | insertPlayerNameAndPid (name : String) (pid : Pid)
  | saveOnlineCtrl (pid : Pid) (name : String) (data : Val β)
  | saveRoleList (account : Option String) (roleinfo : List Role)
  | saveAllId (player_id : Int)

/-- A coroutine suspended on a `getLastError`: that of `Insert` or that of `Update`. -/
inductive ErrCo
  | insert (n : Nat)
  | update (n : Nat)
  deriving DecidableEq

/-- The commands to mongo; `n` is the request whose coroutine sent it and, `update` apart, waits for the reply. -/
inductive Cmd (β : Type)
  | insert (n : Nat) (w : Write β)
  | update (n : Nat) (w : Write β)
  | getLastError (co : ErrCo)

/-- The replies of mongo, with the coroutine that waits; `ok` is the outcome of a write. The reply of an insert
holds its own outcome, which `Insert` does not read. -/
inductive Reply
  | inserted (n : Nat) (ok : Bool)
  | lastError (co : ErrCo) (ok : Bool)

/-- What mongo has executed: the writes with their outcomes, and the `getLastError` of the inserts. -/
inductive Executed
  | insert (n : Nat) (ok : Bool)
  | update (n : Nat) (ok : Bool)
  | lastError (n : Nat)
  deriving DecidableEq

/-- gamedb and mongo: commands sent and not executed, replies the coroutines have not resumed on, the number of
requests so far, the responses to `InsertPlayerNameAndPid` with their flags, and the log of what was executed. -/
structure MongoConn (β : Type) where
  db : Db β
  lastOk : Bool
  queue : List (Cmd β)
  replies : List Reply
  requests : Nat
  responses : List (Nat × Bool)
  log : List Executed

namespace MongoConn

def init (db : Db β) : MongoConn β := ⟨db, true, [], [], 0, [], []⟩

/-- What the handler of request `n` sends before it is suspended. -/
def start (n : Nat) : Req β → List (Cmd β)
  | .insertPlayerNameAndPid name pid => [.insert n (GameDb.insertPlayerNameAndPid name pid)]
  | .saveOnlineCtrl pid name data => [.update n (GameDb.saveOnlineCtrl pid name data), .getLastError (.update n)]
  | .saveRoleList account roleinfo =>
    [.update n (GameDb.saveRoleList account roleinfo), .getLastError (.update n)]
  | .saveAllId player_id => [.update n (GameDb.saveAllId player_id), .getLastError (.update n)]

/-- `request` starts a handler, `exec` lets mongo execute the oldest command, `resume i` hands the reply number `i`
to its coroutine. -/
inductive Ev (β : Type)
  | request (r : Req β)
  | exec
  | resume (i : Nat)

variable [DecidableEq β]

def exec (s : MongoConn β) : Cmd β → MongoConn β
  | .insert n w =>
    let r := s.db.write w
    { s with db := r.1, lastOk := r.2, replies := s.replies ++ [.inserted n r.2], log := s.log ++ [.insert n r.2] }
  | .update n w =>
    let r := s.db.write w
    { s with db := r.1, lastOk := r.2, log := s.log ++ [.update n r.2] }
  | .getLastError (.insert n) =>
    { s with replies := s.replies ++ [.lastError (.insert n) s.lastOk], log := s.log ++ [.lastError n] }
  | .getLastError (.update n) => { s with replies := s.replies ++ [.lastError (.update n) s.lastOk] }

omit [DecidableEq β] in
/-- `Insert` returns whether `getLastError` reported no error, and `InsertPlayerNameAndPid` responds it. -/
def resume (s : MongoConn β) : Reply → MongoConn β
  | .inserted n _ => { s with queue := s.queue ++ [.getLastError (.insert n)] }
  | .lastError (.insert n) ok => { s with responses := s.responses ++ [(n, ok)] }
  | .lastError (.update _) _ => s

def step (s : MongoConn β) : Ev β → Option (MongoConn β)
  | .request r => some { s with queue := s.queue ++ start s.requests r, requests := s.requests + 1 }
  | .exec =>
    match s.queue with
    | [] => none
    | cmd :: q => some (exec { s with queue := q } cmd)
  | .resume i =>
    match s.replies[i]? with
    | none => none
    | some reply => some (resume { s with replies := s.replies.eraseIdx i } reply)

end MongoConn

/-! ## Windows -/

/-- How far an insert has come: `own` is its outcome, `last` the outcome of the other requests' write executed
last between it and its `getLastError`. -/
inductive Window
  | before
  | opened (own : Bool) (last : Option Bool)
  | closed (own : Bool) (last : Option Bool)
  deriving DecidableEq

def Window.next (n : Nat) : Window → Executed → Window
  | .before, .insert m ok => if m = n then .opened ok none else .before
  | .opened own last, .insert m ok => if m = n then .opened own last else .opened own (some ok)
  | .opened own _, .update _ ok => .opened own (some ok)
  | .opened own last, .lastError m => if m = n then .closed own last else .opened own last
  | w, _ => w

def window (n : Nat) (log : List Executed) : Window := log.foldl (Window.next n) .before

theorem window_concat (n : Nat) (log : List Executed) (e : Executed) :
    window n (log ++ [e]) = (window n log).next n e := by
  simp [window, List.foldl_append]

/-- The outcome of an insert that was executed. -/
def Window.own : Window → Option Bool
  | .before => none
  | .opened own _ => some own
  | .closed own _ => some own

/-- The other requests' write executed last in the window, if any, had the outcome of the insert. -/
def SameOutcome (n : Nat) (log : List Executed) : Prop :=
  match window n log with
  | .closed own (some last) => last = own
  | _ => True

/-! ## The stages of an insert -/

/-- An insert not executed, one that was, and one whose `getLastError` reported `ok`. -/
inductive Stage
  | sent
  | opened
  | closed (ok : Bool)

/-- The window fits the stage. While it is open, `lastOk` is what its `getLastError` would report. -/
def StageOk (lastOk : Bool) (w : Window) : Stage → Prop
  | .sent => w = .before
  | .opened => ∃ own last, w = .opened own last ∧ lastOk = last.getD own
  | .closed ok => ∃ own last, w = .closed own last ∧ ok = last.getD own

/-- The windows of the inserts under way: each is at one stage, `T` lists them, and the log holds the outcomes. -/
structure Windows (T : List (Nat × Stage)) (requests : Nat) (lastOk : Bool) (log : List Executed) : Prop where
  nodup : (T.map Prod.fst).Nodup
  known : ∀ t ∈ T, t.1 < requests
  fresh : ∀ n, requests ≤ n → window n log = .before
  stage : ∀ t ∈ T, StageOk lastOk (window t.1 log) t.2
  own : ∀ n ok, .insert n ok ∈ log ↔ (window n log).own = some ok

namespace Windows

variable {T T' : List (Nat × Stage)} {requests n : Nat} {lastOk ok : Bool} {st : Stage} {log : List Executed}

theorem perm (h : Windows T requests lastOk log) (hp : T.Perm T') : Windows T' requests lastOk log :=
  ⟨(hp.map _).nodup_iff.1 h.nodup, fun t ht => h.known t (hp.mem_iff.2 ht), h.fresh,
    fun t ht => h.stage t (hp.mem_iff.2 ht), h.own⟩

/-- A request that is no insert. -/
theorem request (h : Windows T requests lastOk log) : Windows T (requests + 1) lastOk log :=
  ⟨h.nodup, fun t ht => Nat.lt_succ_of_lt (h.known t ht), fun n hn => h.fresh n (by omega), h.stage, h.own⟩

/-- A new insert. -/
theorem requestInsert (h : Windows T requests lastOk log) :
    Windows ((requests, .sent) :: T) (requests + 1) lastOk log := by
  refine ⟨?_, ?_, fun n hn => h.fresh n (by omega), ?_, h.own⟩
  · rw [List.map_cons, List.nodup_cons]
    refine ⟨fun hin => ?_, h.nodup⟩
    obtain ⟨t, ht, heq⟩ := List.mem_map.1 hin
    exact absurd (h.known t ht) (by omega)
  · intro t ht
    rcases List.mem_cons.1 ht with rfl | ht
    · exact Nat.lt_succ_self _
    · exact Nat.lt_succ_of_lt (h.known t ht)
  · intro t ht
    rcases List.mem_cons.1 ht with rfl | ht
    · exact h.fresh requests le_rfl
    · exact h.stage t ht

/-- The other inserts have other numbers. -/
theorem ne_of_mem (h : Windows ((n, st) :: T) requests lastOk log) {t : Nat × Stage} (ht : t ∈ T) : t.1 ≠ n := by
  intro heq
  have hin : t.1 ∈ T.map Prod.fst := List.mem_map_of_mem ht
  rw [heq] at hin
  exact (List.nodup_cons.1 h.nodup).1 hin

/-- A write of another request is executed. -/
theorem stageOk_write {w : Window} (hst : StageOk lastOk w st) {e : Executed}
    (he : (∃ m, m ≠ n ∧ e = .insert m ok) ∨ ∃ m, e = .update m ok) : StageOk ok (w.next n e) st := by
  cases st with
  | sent =>
    obtain rfl : w = .before := hst
    rcases he with ⟨m, hm, rfl⟩ | ⟨m, rfl⟩ <;> simp [StageOk, Window.next, *]
  | opened =>
    obtain ⟨own, last, rfl, -⟩ := hst
    rcases he with ⟨m, hm, rfl⟩ | ⟨m, rfl⟩ <;> simp [StageOk, Window.next, *]
  | closed b =>
    obtain ⟨own, last, rfl, rfl⟩ := hst
    rcases he with ⟨m, hm, rfl⟩ | ⟨m, rfl⟩ <;> simp [StageOk, Window.next]

/-- The outcome of an insert is what its window says, as long as no insert is executed twice. -/
theorem own_concat (h : ∀ n ok, .insert n ok ∈ log ↔ (window n log).own = some ok) {e : Executed}
    (he : ∀ m ok, e = .insert m ok → window m log = .before) :
    ∀ n ok, .insert n ok ∈ log ++ [e] ↔ (window n (log ++ [e])).own = some ok := by
  intro n ok
  rw [window_concat, List.mem_append, h n ok, List.mem_singleton]
  cases e with
  | insert m b =>
    by_cases hm : m = n
    · subst hm
      rw [he m b rfl]
      simp [Window.next, Window.own, eq_comm]
    · have hne : (Executed.insert n ok = .insert m b) = False := by simp [Ne.symm hm]
      rw [hne, or_false]
      cases window n log <;> simp [Window.next, Window.own, hm]
  | update m b => cases window n log <;> simp [Window.next, Window.own]
  | lastError m =>
    cases window n log with
    | opened own last =>
      by_cases hm : m = n <;> simp [Window.next, Window.own, hm]
    | before => simp [Window.next, Window.own]
    | closed own last => simp [Window.next, Window.own]

theorem fresh_concat (h : Windows T requests lastOk log) {e : Executed}
    (he : ∀ m ok, e = .insert m ok → m < requests) (n : Nat) (hn : requests ≤ n) :
    window n (log ++ [e]) = .before := by
  rw [window_concat, h.fresh n hn]
  cases e with
  | insert m b =>
    have hm : m ≠ n := fun hmn => absurd (he m b rfl) (by omega)
    simp [Window.next, hm]
  | update m b => rfl
  | lastError m => rfl

/-- mongo executes insert `n`. -/
theorem execInsert (h : Windows ((n, .sent) :: T) requests lastOk log) (ok : Bool) :
    Windows ((n, .opened) :: T) requests ok (log ++ [.insert n ok]) := by
  have hbefore : window n log = .before := h.stage _ List.mem_cons_self
  have hn : n < requests := h.known _ List.mem_cons_self
  refine ⟨h.nodup, ?_, h.fresh_concat ?_, ?_, own_concat h.own ?_⟩
  · intro t ht
    rcases List.mem_cons.1 ht with rfl | ht
    · exact hn
    · exact h.known t (List.mem_cons_of_mem _ ht)
  · rintro m b heq
    obtain ⟨rfl, -⟩ := Executed.insert.inj heq
    exact hn
  · intro t ht
    rw [window_concat]
    rcases List.mem_cons.1 ht with rfl | ht
    · exact ⟨ok, none, by simp [hbefore, Window.next], rfl⟩
    · exact stageOk_write (h.stage t (List.mem_cons_of_mem _ ht)) (Or.inl ⟨n, (h.ne_of_mem ht).symm, rfl⟩)
  · rintro m b heq
    obtain ⟨rfl, -⟩ := Executed.insert.inj heq
    exact hbefore

/-- mongo executes an update. -/
theorem execUpdate (h : Windows T requests lastOk log) (n : Nat) (ok : Bool) :
    Windows T requests ok (log ++ [.update n ok]) := by
  refine ⟨h.nodup, h.known, h.fresh_concat (fun m b heq => by cases heq), fun t ht => ?_,
    own_concat h.own fun m b heq => by cases heq⟩
  rw [window_concat]
  exact stageOk_write (h.stage t ht) (Or.inr ⟨n, rfl⟩)

/-- mongo executes the `getLastError` of insert `n`. -/
theorem execLastError (h : Windows ((n, .opened) :: T) requests lastOk log) :
    Windows ((n, .closed lastOk) :: T) requests lastOk (log ++ [.lastError n]) := by
  obtain ⟨own, last, hw, hlast⟩ := h.stage _ List.mem_cons_self
  refine ⟨h.nodup, ?_, h.fresh_concat (fun m b heq => by cases heq), ?_, own_concat h.own fun m b heq => by cases heq⟩
  · intro t ht
    rcases List.mem_cons.1 ht with rfl | ht
    · exact h.known (n, .opened) List.mem_cons_self
    · exact h.known t (List.mem_cons_of_mem _ ht)
  · intro t ht
    rw [window_concat]
    rcases List.mem_cons.1 ht with rfl | ht
    · have hw' : window n log = .opened own last := hw
      exact ⟨own, last, by simp [hw', Window.next], hlast⟩
    · have hne : n ≠ t.1 := (h.ne_of_mem ht).symm
      have hst := h.stage t (List.mem_cons_of_mem _ ht)
      have hsame : (window t.1 log).next t.1 (.lastError n) = window t.1 log := by
        cases window t.1 log <;> simp [Window.next, hne]
      rw [hsame]
      exact hst

end Windows

/-! ## The inserts under way -/

def Cmd.stage : Cmd β → Option (Nat × Stage)
  | .insert n _ => some (n, .sent)
  | .update _ _ => none
  | .getLastError (.insert n) => some (n, .opened)
  | .getLastError (.update _) => none

def Reply.stage : Reply → Option (Nat × Stage)
  | .inserted n _ => some (n, .opened)
  | .lastError (.insert n) ok => some (n, .closed ok)
  | .lastError (.update _) _ => none

namespace MongoConn

/-- Every insert so far, with its stage. -/
def inserts (s : MongoConn β) : List (Nat × Stage) :=
  s.queue.filterMap Cmd.stage ++ s.replies.filterMap Reply.stage ++ s.responses.map fun r => (r.1, .closed r.2)

def Inv (s : MongoConn β) : Prop := Windows s.inserts s.requests s.lastOk s.log

theorem inv_init (db : Db β) : Inv (init db) where
  nodup := List.nodup_nil
  known _ h := by cases h
  fresh _ _ := rfl
  stage _ h := by cases h
  own n ok := by simp [init, window, Window.own]

variable [DecidableEq β]

omit [DecidableEq β] in
theorem inv_request {s : MongoConn β} (h : Inv s) (r : Req β) :
    Inv { s with queue := s.queue ++ start s.requests r, requests := s.requests + 1 } := by
  cases r with
  | insertPlayerNameAndPid name pid =>
    apply h.requestInsert.perm
    simp only [inserts, start, List.filterMap_append, List.append_assoc]
    exact List.perm_middle.symm
  | saveOnlineCtrl pid name data =>
    simpa [Inv, inserts, start, List.filterMap_cons, Cmd.stage] using h.request
  | saveRoleList account roleinfo =>
    simpa [Inv, inserts, start, List.filterMap_cons, Cmd.stage] using h.request
  | saveAllId player_id => simpa [Inv, inserts, start, List.filterMap_cons, Cmd.stage] using h.request

theorem inv_exec {s : MongoConn β} {cmd : Cmd β} {q : List (Cmd β)} (h : Inv s) (hq : s.queue = cmd :: q) :
    Inv (exec { s with queue := q } cmd) := by
  unfold Inv inserts at h
  rw [hq] at h
  cases cmd with
  | insert n w =>
    refine (h.execInsert (s.db.write w).2).perm ?_
    simp only [inserts, exec, List.filterMap_append, ← List.append_assoc]
    rw [List.append_assoc]
    exact List.perm_middle.symm
  | update n w => exact h.execUpdate n (s.db.write w).2
  | getLastError co =>
    cases co with
    | insert n =>
      apply h.execLastError.perm
      simp only [inserts, exec, List.filterMap_append, ← List.append_assoc]
      rw [List.append_assoc]
      exact List.perm_middle.symm
    | update n => simpa [Inv, inserts, exec, List.filterMap_cons, Cmd.stage, Reply.stage] using h

omit [DecidableEq β] in
theorem inv_resume {s : MongoConn β} {i : Nat} {r : Reply} (h : Inv s) (hi : s.replies[i]? = some r) :
    Inv (resume { s with replies := s.replies.eraseIdx i } r) := by
  obtain ⟨hlt, rfl⟩ := List.getElem?_eq_some_iff.1 hi
  have hreplies := (List.getElem_cons_eraseIdx_perm hlt).symm.filterMap Reply.stage
  have h' := h.perm ((hreplies.append_left _).append_right _)
  cases hr : s.replies[i] with
  | inserted n ok =>
    apply h'.perm
    simp only [hr, inserts, resume, List.filterMap_append, List.append_assoc]
    exact List.Perm.refl _
  | lastError co ok =>
    cases co with
    | insert n =>
      apply h'.perm
      simp only [hr, inserts, resume, List.map_append, ← List.append_assoc]
      refine ((List.perm_middle.append_right _).trans ?_)
      exact (List.perm_append_singleton _ _).symm
    | update n => simpa [hr, Inv, inserts, resume, List.filterMap_cons, Reply.stage] using h'

theorem inv_step {s t : MongoConn β} {e : Ev β} (h : Inv s) (hs : step s e = some t) : Inv t := by
  cases e with
  | request r =>
    obtain rfl := Option.some.inj hs
    exact inv_request h r
  | exec =>
    simp only [step] at hs
    split at hs
    · cases hs
    · next cmd q hq =>
      obtain rfl := Option.some.inj hs
      exact inv_exec h hq
  | resume i =>
    simp only [step] at hs
    split at hs
    · cases hs
    · next r hi =>
      obtain rfl := Option.some.inj hs
      exact inv_resume h hi

/-! ## The flags -/

/-- The flag of a response says whether the row of the request was inserted. -/
def FlagRight (s : MongoConn β) (r : Nat × Bool) : Prop := r.2 = true ↔ .insert r.1 true ∈ s.log

omit [DecidableEq β] in
theorem Inv.flagRight_iff {s : MongoConn β} (h : Inv s) {r : Nat × Bool} (hr : r ∈ s.responses) :
    FlagRight s r ↔ SameOutcome r.1 s.log := by
  have hin : (r.1, Stage.closed r.2) ∈ s.inserts :=
    List.mem_append_right _ (List.mem_map.2 ⟨r, hr, rfl⟩)
  obtain ⟨own, last, hw, hlast⟩ := h.stage _ hin
  have hown := h.own r.1 true
  simp only at hw hlast
  rw [hw, Window.own, Option.some.injEq] at hown
  unfold FlagRight SameOutcome
  rw [hown, hw, hlast]
  cases last with
  | none => simp
  | some b => cases b <;> cases own <;> simp

/-- **The flag of a response is right iff** the write of another request that mongo executed last between the insert
and its `getLastError`, if any, had the same outcome as the insert; in every state of every run. -/
theorem flag_right_iff (db : Db β) (es : List (Ev β)) :
    Always step (fun s => ∀ r ∈ s.responses, FlagRight s r ↔ SameOutcome r.1 s.log) (init db) es :=
  (always_of_inv inv_step (inv_init db) es).imp fun _ h _ => h.flagRight_iff

/-- Two requests insert the same name; the second, refused, falls between the first and its `getLastError`. -/
theorem flag_wrong : ¬ Always step (fun s => ∀ r ∈ s.responses, FlagRight s r) (init (Db.empty : Db Unit))
    [.request (.insertPlayerNameAndPid "ann" 1001), .request (.insertPlayerNameAndPid "ann" 1002), .exec, .exec,
     .resume 0, .exec, .resume 1] := by
  intro h
  have hlast := (((((((h.2 _ rfl).2 _ rfl).2 _ rfl).2 _ rfl).2 _ rfl).2 _ rfl).2 _ rfl)
  have hflag := hlast (0, false) (by decide)
  revert hflag
  unfold FlagRight
  decide

end MongoConn

end RoundGame.GameDb
