import RoundGame.Skynet.Account

/-!
# The invariant of the server

`Inv s l`: with the queues `l` in the global queue, every service has its account (`Account`), every frame may rely on
what its code relies on (`FrameOk`), and no handle belongs to two services. `Inv.next` says what has to be checked of a
step of a thread that changes one service; each kind of frame has its own lemma, and every step keeps the invariant as
long as the handles do not come round (`step_inv`).
-/

namespace RoundGame.Skynet

open Function Threads

variable {δ : Type}

namespace Frame

/-- Whether the frame has the queue `c` in its hands. -/
def holds (c : Nat) : Frame δ → Nat
  | .top (some q) | .pop q .. | .length q .. | .trigger q .. | .callback q .. | .swap q _ | .mqRelease q | .drop q
  | .init q | .initOk q | .setInit q | .launch q | .initFail q | .failRetire q => if q = c then 1 else 0
  | .pushBack q _ nq => (if q = c then 1 else 0) + if nq = c then 1 else 0
  | _ => 0

/-- Whether the frame has a reference to the context `c`. -/
def refs (c : Nat) : Frame δ → Nat
  | .pop _ d _ _ | .length _ d _ | .trigger _ d _ _ _ | .callback _ d _ _ _ | .swap _ d | .pushBack _ d _
  | .release d | .send d _ | .init d | .initOk d | .initFail d => if d = c then 1 else 0
  | _ => 0

/-- Whether the frame is to delete the context `c`. -/
def deletes (c : Nat) : Frame δ → Nat
  | .delete d => if d = c then 1 else 0
  | _ => 0

/-- The services that a frame names were created. -/
def Below (n : Nat) : Frame δ → Prop
  | .env | .top none => True
  | .top (some q) | .mqRelease q | .drop q | .init q | .initOk q | .setInit q | .launch q | .initFail q | .failRetire q
  | .release q | .delete q | .send q _ => q < n
  | .pop q c .. | .length q c .. | .trigger q c .. | .callback q c .. | .swap q c => q < n ∧ c < n
  | .pushBack q c nq => q < n ∧ c < n ∧ nq < n

theorem Below.mono {n m : Nat} (hle : n ≤ m) {f : Frame δ} (h : f.Below n) : f.Below m := by
  cases f with
  | env => trivial
  | top q =>
    cases q with
    | none => trivial
    | some q => exact Nat.lt_of_lt_of_le h hle
  | pop | length | trigger | callback | swap =>
    exact ⟨Nat.lt_of_lt_of_le h.1 hle, Nat.lt_of_lt_of_le h.2 hle⟩
  | pushBack => exact ⟨Nat.lt_of_lt_of_le h.1 hle, Nat.lt_of_lt_of_le h.2.1 hle, Nat.lt_of_lt_of_le h.2.2 hle⟩
  | release | delete | mqRelease | drop | send | init | initOk | setInit | launch | initFail | failRetire =>
    exact Nat.lt_of_lt_of_le h hle

/-- A frame has nothing of a service that was not created. -/
theorem Below.zero {n c : Nat} (hle : n ≤ c) {f : Frame δ} (h : f.Below n) :
    f.holds c = 0 ∧ f.refs c = 0 ∧ f.deletes c = 0 := by
  have hne : ∀ {q}, q < n → q ≠ c := fun hq heq => by omega
  cases f with
  | env => exact ⟨rfl, rfl, rfl⟩
  | top q =>
    cases q with
    | none => exact ⟨rfl, rfl, rfl⟩
    | some q => exact ⟨if_neg (hne h), rfl, rfl⟩
  | pop | length | trigger | callback | swap => exact ⟨if_neg (hne h.1), if_neg (hne h.2), rfl⟩
  | pushBack =>
    refine ⟨?_, if_neg (hne h.2.1), rfl⟩
    rw [holds, if_neg (hne h.1), if_neg (hne h.2.2)]
  | release | send => exact ⟨rfl, if_neg (hne h), rfl⟩
  | delete => exact ⟨rfl, rfl, if_neg (hne h)⟩
  | init | initOk | initFail => exact ⟨if_neg (hne h), if_neg (hne h), rfl⟩
  | mqRelease | drop | setInit | launch | failRetire => exact ⟨if_neg (hne h), rfl, rfl⟩

end Frame

namespace Server

def Registered (s : Server δ) (c : Nat) : Prop := s.handles.grab (s.service c).ctx.handle = some c

/-- A service that can be found was initialized. -/
def Ready (s : Server δ) (c : Nat) : Prop := s.Registered c → (s.service c).ctx.init = true

/-- What the code of a frame relies on. -/
def Relies (s : Server δ) : Frame δ → Prop
  | .top (some q) | .launch q => s.Ready q
  | .pop q c .. | .length q c .. | .trigger q c .. | .callback q c .. | .swap q c =>
    q = c ∧ (s.service c).ctx.init = true
  | .pushBack q c nq => (q = c ∧ (s.service c).ctx.init = true) ∧ s.Ready nq
  | .mqRelease q => ¬ s.Registered q
  | .drop q => (s.service q).queue.release = true
  | _ => True

def FrameOk (s : Server δ) (f : Frame δ) : Prop := f.Below s.count ∧ s.Relies f

structure Inv (s : Server δ) (l : List Nat) : Prop where
  crash : s.crash = false
  reps : s.global.Reps l
  table : s.handles.Wf
  index : 0 < s.handles.handle_index
  listed : ∀ c ∈ l, c < s.count ∧ s.Ready c
  awake : ∀ c < s.count, (s.service c).queue.in_global = false → s.Ready c
  frames : ∀ st ∈ s.thread, ∀ f ∈ st, s.FrameOk f
  accounts : ∀ c < s.count, Account (s.service c) (l.count c + tally (Frame.holds c) s.thread)
    (tally (Frame.refs c) s.thread) (tally (Frame.deletes c) s.thread) (s.Registered c)
  registered : ∀ h c, s.handles.grab h = some c → c < s.count ∧ (s.service c).ctx.handle = h
  distinct : ∀ c < s.count, ∀ d < s.count, (s.service c).ctx.handle = (s.service d).ctx.handle → c = d
  bound : ∀ c < s.count, 0 < (s.service c).ctx.handle ∧
    (s.service c).ctx.handle < s.handles.harbor + s.handles.handle_index

variable {s s' : Server δ} {l l' : List Nat} {t c d q : Nat} {f : Frame δ} {st fs : List (Frame δ)}

/-! ## What later states keep -/

/-- What only grows: services stay initialized, marked and retired. -/
structure Later (s s' : Server δ) : Prop where
  count : s.count ≤ s'.count
  init : ∀ c < s.count, (s.service c).ctx.init = true → (s'.service c).ctx.init = true
  release : ∀ c < s.count, (s.service c).queue.release = true → (s'.service c).queue.release = true
  retired : ∀ c < s.count, s'.Registered c → s.Registered c

theorem Later.ready (h : Later s s') (hc : c < s.count) (hr : s.Ready c) : s'.Ready c :=
  fun hreg => h.init c hc (hr (h.retired c hc hreg))

theorem Later.frameOk (h : Later s s') (hf : s.FrameOk f) : s'.FrameOk f := by
  obtain ⟨hbelow, hrel⟩ := hf
  refine ⟨hbelow.mono h.count, ?_⟩
  cases f with
  | top q =>
    cases q with
    | none => trivial
    | some q => exact h.ready hbelow hrel
  | launch => exact h.ready hbelow hrel
  | pop | length | trigger | callback | swap => exact ⟨hrel.1, h.init _ hbelow.2 hrel.2⟩
  | pushBack => exact ⟨⟨hrel.1.1, h.init _ hbelow.2.1 hrel.1.2⟩, h.ready hbelow.2.2 hrel.2⟩
  | mqRelease => exact fun hreg => hrel (h.retired _ hbelow hreg)
  | drop => exact h.release _ hbelow hrel
  | env | release | delete | send | init | initOk | setInit | initFail | failRetire => trivial

/-! ## A step of a thread -/

/-- What a step that changes the service `d` only has to keep. -/
structure OneService (s s' : Server δ) (d : Nat) : Prop where
  handles : s'.handles = s.handles
  count : s'.count = s.count
  crash : s'.crash = false
  others : ∀ c, c ≠ d → s'.service c = s.service c
  handle : (s'.service d).ctx.handle = (s.service d).ctx.handle
  init : (s.service d).ctx.init = true → (s'.service d).ctx.init = true
  release : (s.service d).queue.release = true → (s'.service d).queue.release = true
  awake : (s'.service d).queue.in_global = false → (s.service d).queue.in_global = false ∨ s'.Ready d

namespace OneService

variable (h : OneService s s' d)

include h

theorem handle_eq (c : Nat) : (s'.service c).ctx.handle = (s.service c).ctx.handle := by
  by_cases hc : c = d
  · rw [hc]
    exact h.handle
  · rw [h.others c hc]

theorem registered_iff (c : Nat) : s'.Registered c ↔ s.Registered c := by
  rw [Registered, Registered, h.handles, h.handle_eq]

theorem later : Later s s' := by
  refine ⟨h.count.ge, ?_, ?_, fun c _ hreg => (h.registered_iff c).1 hreg⟩
  · intro c _ hinit
    by_cases hc : c = d
    · rw [hc] at hinit ⊢
      exact h.init hinit
    · rw [h.others c hc]
      exact hinit
  · intro c _ hrel
    by_cases hc : c = d
    · rw [hc] at hrel ⊢
      exact h.release hrel
    · rw [h.others c hc]
      exact hrel

end OneService

/-- What frames hold together. -/
def total (w : Frame δ → Nat) (fs : List (Frame δ)) : Nat := (fs.map w).sum

@[simp] theorem total_nil (w : Frame δ → Nat) : total w [] = 0 := rfl

@[simp] theorem total_cons (w : Frame δ → Nat) (f : Frame δ) (fs : List (Frame δ)) :
    total w (f :: fs) = w f + total w fs := by rw [total, List.map_cons, List.sum_cons, total]

/-- A step of the thread `t` whose top frame `f` is replaced by `fs`, and which changes the service `d` only. Nobody has
more or less of the other services than before. -/
theorem Inv.next (h : Inv s l) (hst : s.thread[t]? = some (f :: st)) (hone : OneService s s' d)
    (hreps : s'.global.Reps l') (hlisted : ∀ c ∈ l', c ∈ l ∨ c < s'.count ∧ s'.Ready c)
    (hframes : ∀ g ∈ fs, s'.FrameOk g)
    (hcounts : ∀ c, c ≠ d → l'.count c + total (Frame.holds c) fs = l.count c + f.holds c ∧
      total (Frame.refs c) fs = f.refs c ∧ total (Frame.deletes c) fs = f.deletes c)
    (hacc : ∀ P R D,
      Account (s.service d) (l.count d + f.holds d + P) (f.refs d + R) (f.deletes d + D) (s.Registered d) →
      Account (s'.service d) (l'.count d + total (Frame.holds d) fs + P) (total (Frame.refs d) fs + R)
        (total (Frame.deletes d) fs + D) (s.Registered d)) :
    Inv { s' with thread := s.thread.set t (fs ++ st) } l' := by
  have hmem := List.mem_of_getElem? hst
  refine ⟨hone.crash, hreps, ?_, ?_, ?_, ?_, ?_, ?_, ?_, ?_, ?_⟩
  · rw [hone.handles]
    exact h.table
  · rw [hone.handles]
    exact h.index
  · intro c hc
    rcases hlisted c hc with hold | hnew
    · obtain ⟨hlt, hready⟩ := h.listed c hold
      exact ⟨hone.count ▸ hlt, hone.later.ready hlt hready⟩
    · exact hnew
  · intro c hc hidle
    change c < s'.count at hc
    change (s'.service c).queue.in_global = false at hidle
    rw [hone.count] at hc
    by_cases hcd : c = d
    · rw [hcd] at hidle hc ⊢
      rcases hone.awake hidle with hold | hready
      · exact hone.later.ready hc (h.awake d hc hold)
      · exact hready
    · rw [hone.others c hcd] at hidle
      exact hone.later.ready hc (h.awake c hc hidle)
  · exact forall_step (fun st' hst' g hg => hone.later.frameOk (h.frames st' hst' g hg)) hst hframes
  · intro c hc
    rw [hone.count] at hc
    have hold := h.accounts c hc
    have hP := tally_step (w := Frame.holds c) hst fs
    have hR := tally_step (w := Frame.refs c) hst fs
    have hD := tally_step (w := Frame.deletes c) hst fs
    have hP' := le_tally (w := Frame.holds c) hmem List.mem_cons_self
    have hR' := le_tally (w := Frame.refs c) hmem List.mem_cons_self
    have hD' := le_tally (w := Frame.deletes c) hmem List.mem_cons_self
    have hreg : Registered { s' with thread := s.thread.set t (fs ++ st) } c = s.Registered c :=
      propext (hone.registered_iff c)
    rw [hreg]
    rw [← total] at hP hR hD
    by_cases hcd : c = d
    · subst hcd
      have hnew := hacc (tally (Frame.holds c) s.thread - f.holds c) (tally (Frame.refs c) s.thread - f.refs c)
        (tally (Frame.deletes c) s.thread - f.deletes c)
      rw [Nat.add_assoc, Nat.add_sub_cancel' hP', Nat.add_sub_cancel' hR', Nat.add_sub_cancel' hD'] at hnew
      have hresult := hnew hold
      have eP : l'.count c + total (Frame.holds c) fs + (tally (Frame.holds c) s.thread - f.holds c) =
          l'.count c + tally (Frame.holds c) (s.thread.set t (fs ++ st)) := by omega
      have eR : total (Frame.refs c) fs + (tally (Frame.refs c) s.thread - f.refs c) =
          tally (Frame.refs c) (s.thread.set t (fs ++ st)) := by omega
      have eD : total (Frame.deletes c) fs + (tally (Frame.deletes c) s.thread - f.deletes c) =
          tally (Frame.deletes c) (s.thread.set t (fs ++ st)) := by omega
      rwa [eP, eR, eD] at hresult
    · obtain ⟨h1, h2, h3⟩ := hcounts c hcd
      have eP : l.count c + tally (Frame.holds c) s.thread =
          l'.count c + tally (Frame.holds c) (s.thread.set t (fs ++ st)) := by omega
      have eR : tally (Frame.refs c) s.thread = tally (Frame.refs c) (s.thread.set t (fs ++ st)) := by omega
      have eD : tally (Frame.deletes c) s.thread = tally (Frame.deletes c) (s.thread.set t (fs ++ st)) := by omega
      rw [eP, eR, eD] at hold
      change Account (s'.service c) _ _ _ _
      rwa [hone.others c hcd]
  · intro x c hg
    change s'.handles.grab x = some c at hg
    rw [hone.handles] at hg
    obtain ⟨hlt, hh⟩ := h.registered x c hg
    exact ⟨hone.count ▸ hlt, (hone.handle_eq c).trans hh⟩
  · intro c hc e he heq
    change (s'.service c).ctx.handle = (s'.service e).ctx.handle at heq
    rw [hone.handle_eq, hone.handle_eq] at heq
    exact h.distinct c (hone.count ▸ hc) e (hone.count ▸ he) heq
  · intro c hc
    change 0 < (s'.service c).ctx.handle ∧ (s'.service c).ctx.handle < s'.handles.harbor + s'.handles.handle_index
    rw [hone.handle_eq, hone.handles]
    exact h.bound c (hone.count ▸ hc)

end Server

end RoundGame.Skynet
