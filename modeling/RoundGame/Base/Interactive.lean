import RoundGame.Lib.StepSys
import Mathlib.Data.List.Nodup
import Mathlib.Data.List.Perm.Basic
import Mathlib.Logic.Function.Basic

/-!
# Requests to other services and their responses

`interactive.request` takes the next session number, keeps the callback under it and sends the number along; a response
brings the number back and runs the callback kept under it. Session numbers start over after `0x7fffffff`, and no entry
is ever removed.

- the `n`-th request has the session `sessionOf n`, and an entry stands as long as fewer than `0x7fffffff` further
  requests have been issued (`Inv`, `inv_request`);
- so a response dispatched within that window runs the callback of its own request, and no callback runs twice
  (`replies_sound`).
-/

namespace RoundGame.Base

open StepSys Function

/-- The locals of `interactive.lua`. -/
structure Interactive (C : Type) where
  sessionIdx : Nat
  sessionKeep : Nat → Option C

namespace Interactive

variable {C : Type}

def new : Interactive C := ⟨0, fun _ => none⟩

def dispatchSession (m : Interactive C) : Nat × Interactive C :=
  let i := if m.sessionIdx + 1 > 0x7fffffff then 1 else m.sessionIdx + 1
  (i, { m with sessionIdx := i })

/-- `request`, with the `session` of the record that is sent. -/
def request (m : Interactive C) (callback : Option C) : Nat × Interactive C :=
  let d := m.dispatchSession
  (d.1, { d.2 with sessionKeep := update d.2.sessionKeep d.1 callback })

/-- The callback that the dispatch of a response runs. -/
def response (m : Interactive C) (session : Nat) : Except String C :=
  match m.sessionKeep session with
  | some callback => .ok callback
  | none => .error "assertion failed!"

end Interactive

/-- The requests of one service. They are numbered in the order of the calls: `passed` says which of them passed a
callback, and the callback of request `n` is `n`. `pending` and `responses` hold the requests not answered and the
responses not dispatched, each with the number of the request and `record.session`; `dispatched` lists the responses
dispatched with the callback that ran. -/
structure Sessions where
  interactive : Interactive Nat
  passed : List Bool
  pending : List (Nat × Nat)
  responses : List (Nat × Nat)
  dispatched : List (Nat × Option Nat)

namespace Sessions

def init : Sessions := ⟨Interactive.new, [], [], [], []⟩

/-- `respond i` and `dispatch i` are about entry `i` of `pending` and of `responses`. A callback that is running may
make requests of its own. -/
inductive Ev
  | request (callback : Bool)
  | respond (i : Nat)
  | dispatch (i : Nat)

def step (s : Sessions) : Ev → Option Sessions
  | .request callback =>
    let r := s.interactive.request (if callback then some s.passed.length else none)
    some { s with interactive := r.2, passed := s.passed ++ [callback],
                  pending := s.pending ++ [(s.passed.length, r.1)] }
  | .respond i =>
    match s.pending[i]? with
    | none => none
    | some r => some { s with pending := s.pending.eraseIdx i, responses := r :: s.responses }
  | .dispatch i =>
    match s.responses[i]? with
    | none => none
    | some r => some { s with
        responses := s.responses.eraseIdx i
        dispatched := s.dispatched ++ [(r.1, (s.interactive.response r.2).toOption)] }

/-- The callback passed to a request. -/
def callback (s : Sessions) (n : Nat) : Option Nat := if s.passed[n]? = some true then some n else none

/-- The session of request `n`. -/
def sessionOf (n : Nat) : Nat := n % 0x7fffffff + 1

/-- Two requests with the same session are a full turn apart. -/
theorem sessionOf_ne {n m : Nat} (hlt : n < m) (hw : m < n + 0x7fffffff) : sessionOf n ≠ sessionOf m := by
  unfold sessionOf
  omega

/-! ## The invariant -/

structure Inv (s : Sessions) : Prop where
  /-- The counter is the session of the last request. -/
  idx : s.interactive.sessionIdx = if s.passed.length = 0 then 0 else sessionOf (s.passed.length - 1)
  /-- An entry stands for a full turn. -/
  keep : ∀ n < s.passed.length, s.passed.length ≤ n + 0x7fffffff →
    s.interactive.sessionKeep (sessionOf n) = s.callback n
  session : ∀ r ∈ s.pending ++ s.responses, r.2 = sessionOf r.1
  lt : ∀ n ∈ (s.pending ++ s.responses).map Prod.fst ++ s.dispatched.map Prod.fst, n < s.passed.length
  once : ((s.pending ++ s.responses).map Prod.fst ++ s.dispatched.map Prod.fst).Nodup
  own : ∀ d ∈ s.dispatched, d.2 = s.callback d.1

theorem inv_init : Inv init :=
  ⟨rfl, fun n hn => absurd hn (Nat.not_lt_zero n), by simp [init], by simp [init], by simp [init], by simp [init]⟩

variable {s t : Sessions}

/-- The next session is that of the next request. -/
theorem Inv.dispatchSession (h : Inv s) : s.interactive.dispatchSession.1 = sessionOf s.passed.length := by
  show (if s.interactive.sessionIdx + 1 > 0x7fffffff then 1 else s.interactive.sessionIdx + 1) = _
  rw [h.idx]
  unfold sessionOf
  split_ifs <;> omega

/-- Later requests do not change the callback of an earlier one. -/
theorem callback_concat {n : Nat} (hn : n < s.passed.length) (b : Bool) (m : Interactive Nat) (p : List (Nat × Nat)) :
    callback { s with interactive := m, passed := s.passed ++ [b], pending := p } n = s.callback n := by
  simp only [callback, List.getElem?_append_left hn]

theorem inv_request (h : Inv s) (b : Bool) (hs : step s (.request b) = some t) : Inv t := by
  obtain rfl := Option.some.inj hs
  have hd : (s.interactive.request (if b then some s.passed.length else none)).1 = sessionOf s.passed.length :=
    h.dispatchSession
  have hperm : ((s.pending ++ [(s.passed.length, sessionOf s.passed.length)] ++ s.responses).map Prod.fst ++
      s.dispatched.map Prod.fst).Perm
      (s.passed.length :: ((s.pending ++ s.responses).map Prod.fst ++ s.dispatched.map Prod.fst)) := by
    simp only [List.append_assoc, List.map_append, List.map_cons, List.singleton_append]
    exact List.perm_middle
  rw [hd]
  constructor
  · simp only [List.length_append, List.length_singleton, Nat.add_sub_cancel]
    exact h.dispatchSession
  · intro n hn hw
    simp only [List.length_append, List.length_singleton] at hn hw
    simp only [Interactive.request, h.dispatchSession]
    rcases Nat.lt_succ_iff_lt_or_eq.1 hn with hn | rfl
    · rw [update_of_ne (sessionOf_ne hn (by omega)), callback_concat hn]
      exact h.keep n hn (by omega)
    · rw [update_self]
      cases b <;> simp [callback]
  · intro r hr
    rw [List.append_assoc, List.mem_append, List.singleton_append, List.mem_cons] at hr
    rcases hr with hr | rfl | hr
    · exact h.session r (List.mem_append_left _ hr)
    · rfl
    · exact h.session r (List.mem_append_right _ hr)
  · intro n hn
    simp only [List.length_append, List.length_singleton]
    rcases List.mem_cons.1 (hperm.mem_iff.1 hn) with rfl | hn
    · exact Nat.lt_succ_self _
    · exact Nat.lt_succ_of_lt (h.lt n hn)
  · refine hperm.nodup_iff.2 (List.nodup_cons.2 ⟨?_, h.once⟩)
    intro hmem
    exact Nat.lt_irrefl _ (h.lt _ hmem)
  · intro d hd
    have hlt := h.lt d.1 (List.mem_append_right _ (List.mem_map_of_mem hd))
    rw [callback_concat hlt]
    exact h.own d hd

theorem inv_respond (h : Inv s) {i : Nat} (hs : step s (.respond i) = some t) : Inv t := by
  simp only [step] at hs
  split at hs
  · cases hs
  · next r hr =>
    obtain rfl := Option.some.inj hs
    have hperm : (s.pending.eraseIdx i ++ r :: s.responses).Perm (s.pending ++ s.responses) := by
      obtain ⟨hi, rfl⟩ := List.getElem?_eq_some_iff.1 hr
      exact List.perm_middle.trans ((List.getElem_cons_eraseIdx_perm hi).append_right _)
    have hperm' := (hperm.map Prod.fst).append_right (s.dispatched.map Prod.fst)
    exact ⟨h.idx, h.keep, fun r hr => h.session r (hperm.mem_iff.1 hr), fun n hn => h.lt n (hperm'.mem_iff.1 hn),
      hperm'.nodup_iff.2 h.once, h.own⟩

/-! ## Responses within the window -/

/-- A response is dispatched before `0x7fffffff` further requests have been issued since its own. -/
def InWindow (s : Sessions) : Ev → Prop
  | .dispatch i => ∀ r ∈ s.responses[i]?, s.passed.length - (r.1 + 1) < 0x7fffffff
  | _ => True

instance (s : Sessions) : ∀ e, Decidable (InWindow s e)
  | .dispatch i => inferInstanceAs (Decidable (∀ r ∈ s.responses[i]?, s.passed.length - (r.1 + 1) < 0x7fffffff))
  | .request _ => isTrue trivial
  | .respond _ => isTrue trivial

theorem inv_dispatch (h : Inv s) {i : Nat} (hw : InWindow s (.dispatch i)) (hs : step s (.dispatch i) = some t) :
    Inv t := by
  simp only [step] at hs
  split at hs
  · cases hs
  · next r hr =>
    obtain rfl := Option.some.inj hs
    have hmem : r ∈ s.pending ++ s.responses := List.mem_append_right _ (List.mem_of_getElem? hr)
    have hlt : r.1 < s.passed.length := h.lt r.1 (List.mem_append_left _ (List.mem_map_of_mem hmem))
    have hran : (s.interactive.response r.2).toOption = s.callback r.1 := by
      have hwin := hw r hr
      rw [h.session r hmem, Interactive.response, h.keep r.1 hlt (by omega)]
      cases s.callback r.1 <;> rfl
    have hperm : ((s.pending ++ s.responses.eraseIdx i).map Prod.fst ++ (s.dispatched ++ [(r.1,
        (s.interactive.response r.2).toOption)]).map Prod.fst).Perm
        ((s.pending ++ s.responses).map Prod.fst ++ s.dispatched.map Prod.fst) := by
      obtain ⟨hi, rfl⟩ := List.getElem?_eq_some_iff.1 hr
      have herase := ((List.getElem_cons_eraseIdx_perm hi).map Prod.fst).append_left (s.pending.map Prod.fst)
      simp only [List.map_append, List.map_cons, List.map_nil, ← List.append_assoc] at herase ⊢
      exact (List.perm_append_singleton _ _).trans
        (List.perm_middle.symm.append_right _ |>.trans (herase.append_right _))
    refine ⟨h.idx, h.keep, ?_, fun n hn => h.lt n (hperm.mem_iff.1 hn), hperm.nodup_iff.2 h.once, ?_⟩
    · intro q hq
      apply h.session q
      rcases List.mem_append.1 hq with hq | hq
      · exact List.mem_append_left _ hq
      · exact List.mem_append_right _ (List.mem_of_mem_eraseIdx hq)
    · intro d hd
      rcases List.mem_append.1 hd with hd | hd
      · exact h.own d hd
      · obtain rfl := List.mem_singleton.1 hd
        exact hran

theorem inv_step {e : Ev} (h : Inv s) (hw : InWindow s e) (hs : step s e = some t) : Inv t := by
  cases e with
  | request b => exact inv_request h b hs
  | respond i => exact inv_respond h hs
  | dispatch i => exact inv_dispatch h hw hs

/-- Each response dispatched ran the callback passed to its request, and no callback ran more than once. -/
structure RepliesOk (s : Sessions) : Prop where
  own : ∀ d ∈ s.dispatched, d.2 = s.callback d.1
  once : (s.dispatched.filterMap Prod.snd).Nodup

theorem callback_mem {n m : Nat} (h : s.callback n = some m) : m = n := by
  unfold callback at h
  split at h
  · exact (Option.some.inj h).symm
  · cases h

theorem ran_sublist {l : List (Nat × Option Nat)} (h : ∀ d ∈ l, d.2 = s.callback d.1) :
    (l.filterMap Prod.snd).Sublist (l.map Prod.fst) := by
  induction l with
  | nil => exact List.Sublist.slnil
  | cons d l ih =>
    have hl := ih fun e he => h e (List.mem_cons_of_mem _ he)
    cases hd : d.2 with
    | none =>
      rw [List.filterMap_cons_none hd]
      exact hl.cons _
    | some m =>
      obtain rfl : m = d.1 := callback_mem ((h d List.mem_cons_self).symm.trans hd)
      rw [List.filterMap_cons_some hd]
      exact hl.cons_cons _

theorem Inv.repliesOk (h : Inv s) : RepliesOk s :=
  ⟨h.own, (List.nodup_append.1 h.once).2.1.sublist (ran_sublist h.own)⟩

/-- **Responses reach their own callback**, in every run in which each of them is dispatched before `0x7fffffff`
further requests have been issued since its request. -/
theorem replies_sound (es : List Ev) (h : Along step InWindow init es) : Always step RepliesOk init es :=
  (always_of_along inv_step inv_init h).imp fun _ => Inv.repliesOk

/-- Two requests, the second made before the first is answered, and their responses in the opposite order. -/
theorem replies_sound_crossed : Always step RepliesOk init
    [.request true, .request true, .respond 1, .respond 0, .dispatch 1, .dispatch 0] :=
  replies_sound _ (by decide)

end Sessions

end RoundGame.Base
