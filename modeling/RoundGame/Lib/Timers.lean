import Mathlib.Data.List.Forall2
import Mathlib.Data.List.Flatten

/-!
# Timers over a store

A `Store` is a clock with timers: `add` enters a callback with a delay, `shift` moves the clock on by one, `detach`
takes out the callbacks that are then due, and `todo` says how many rounds of these an update to a time makes. An
operation is `none` where it is refused. A callback enters timers while it runs, and may raise; what it does can depend
on all calls before (`Behaviour`).

- `run`: a list of `Call`s from outside, with all callbacks that they make. A raise ends the update it happens in, and
  a refused operation the run.
- `EachRun P`: every callback that is called in a run meets `P`, a condition on what it does and on the callbacks of its
  round that are left.
- `Bisim`: a relation between two stores that all operations keep. Then the runs over both are the same (`run_bisim`),
  and so are the callbacks that are called (`Same.eachRun`).
-/

namespace Timers

variable {σ τ κ : Type*}

structure Store (σ κ : Type*) where
  now : σ → Nat
  add : σ → κ → Nat → Option σ
  todo : σ → Nat → Option Nat
  shift : σ → Option σ
  detach : σ → List κ × σ

/-- What a callback does: the timers it enters, each with its delay, and whether it raises then. -/
structure Deed (κ : Type*) where
  adds : List (κ × Nat)
  raises : Bool

/-- What the callback called last does, by the calls up to this one. -/
abbrev Behaviour (κ : Type*) := List (Nat × κ) → Deed κ

inductive Exit
  | done
  | raised
  | aborted
  deriving DecidableEq

inductive Call (κ : Type*)
  | add (k : κ) (t : Nat)
  | update (t : Nat)

/-- The store and what has happened: the calls, each with its time; the timers, each with its deadline; and the stores
that there have been. -/
structure World (σ κ : Type*) where
  store : σ
  calls : List (Nat × κ)
  added : List (Nat × κ)
  trace : List σ

namespace World

def set (w : World σ κ) (s : σ) : World σ κ := { w with store := s, trace := w.trace ++ [s] }

end World

def start (s : σ) : World σ κ := ⟨s, [], [], [s]⟩

section

variable (S : Store σ κ) (b : Behaviour κ)

def addTime (w : World σ κ) (k : κ) (t : Nat) : Option (World σ κ) :=
  (S.add w.store k t).map fun s => { w.set s with added := w.added ++ [(S.now w.store + t, k)] }

def addAll : World σ κ → List (κ × Nat) → Option (World σ κ)
  | w, [] => some w
  | w, (k, t) :: l => (addTime S w k t).bind fun w' => addAll w' l

/-- The callbacks that are due, one after the other. -/
def callAll : List κ → World σ κ → Exit × World σ κ
  | [], w => (.done, w)
  | k :: ks, w =>
    let calls := w.calls ++ [(S.now w.store, k)]
    let deed := b calls
    match addAll S { w with calls := calls } deed.adds with
    | none => (.aborted, { w with calls := calls })
    | some w' => if deed.raises then (.raised, w') else callAll ks w'

/-- `f` goes on where `x` is done. -/
def onDone (x : Exit × World σ κ) (f : World σ κ → Exit × World σ κ) : Exit × World σ κ :=
  match x.1 with
  | .done => f x.2
  | _ => x

/-- `f` goes on unless `x` is aborted. -/
def unlessAborted (x : Exit × World σ κ) (f : World σ κ → Exit × World σ κ) : Exit × World σ κ :=
  match x.1 with
  | .aborted => x
  | _ => f x.2

def rounds : Nat → World σ κ → Exit × World σ κ
  | 0, w => (.done, w)
  | n + 1, w =>
    match S.shift w.store with
    | none => (.aborted, w)
    | some s =>
      let (due, s') := S.detach s
      onDone (callAll S b due ((w.set s).set s')) (rounds n)

def call (w : World σ κ) : Call κ → Exit × World σ κ
  | .add k t =>
    match addTime S w k t with
    | none => (.aborted, w)
    | some w' => (.done, w')
  | .update t =>
    match S.todo w.store t with
    | none => (.aborted, w)
    | some n => rounds S b n w

def run : List (Call κ) → World σ κ → Exit × World σ κ
  | [], w => (.done, w)
  | c :: cs, w => unlessAborted (call S b w c) (run cs)

end

/-! ## The callbacks of a run -/

section

variable (S : Store σ κ) (b : Behaviour κ) (P : Deed κ → List κ → Prop)

/-- Every callback that is called meets `P`, a condition on what it does and on those that are left. -/
def EachAll : List κ → World σ κ → Prop
  | [], _ => True
  | k :: ks, w =>
    let calls := w.calls ++ [(S.now w.store, k)]
    P (b calls) ks ∧
      ∀ w' ∈ addAll S { w with calls := calls } (b calls).adds, (b calls).raises = false → EachAll ks w'

def EachRounds : Nat → World σ κ → Prop
  | 0, _ => True
  | n + 1, w => ∀ s ∈ S.shift w.store,
    let w₂ := (w.set s).set (S.detach s).2
    EachAll S b P (S.detach s).1 w₂ ∧
      ((callAll S b (S.detach s).1 w₂).1 = .done → EachRounds n (callAll S b (S.detach s).1 w₂).2)

def EachCall (w : World σ κ) : Call κ → Prop
  | .add _ _ => True
  | .update t => ∀ n ∈ S.todo w.store t, EachRounds S b P n w

def EachRun : List (Call κ) → World σ κ → Prop
  | [], _ => True
  | c :: cs, w => EachCall S b P w c ∧ ((call S b w c).1 ≠ .aborted → EachRun cs (call S b w c).2)

end

section

variable {S : Store σ κ} {b : Behaviour κ} {P : Deed κ → List κ → Prop}

theorem eachAll_of (hP : ∀ calls ks, P (b calls) ks) : ∀ (ks : List κ) (w : World σ κ), EachAll S b P ks w
  | [], _ => trivial
  | _ :: ks, _ => ⟨hP _ _, fun w' _ _ => eachAll_of hP ks w'⟩

theorem eachRounds_of (hP : ∀ calls ks, P (b calls) ks) : ∀ (n : Nat) (w : World σ κ), EachRounds S b P n w
  | 0, _ => trivial
  | n + 1, _ => fun _ _ => ⟨eachAll_of hP _ _, fun _ => eachRounds_of hP n _⟩

end

theorem call_add {S : Store σ κ} {b : Behaviour κ} {w w' : World σ κ} {k : κ} {t : Nat}
    (h : addTime S w k t = some w') : call S b w (.add k t) = (.done, w') := by
  unfold call
  simp only [h]

theorem call_update {S : Store σ κ} {b : Behaviour κ} {w w' : World σ κ} {t n : Nat} (hn : S.todo w.store t = some n)
    (h : rounds S b n w = (.done, w')) : call S b w (.update t) = (.done, w') := by
  unfold call
  simp only [hn, h]

theorem run_cons {S : Store σ κ} {b : Behaviour κ} {w w' : World σ κ} {c : Call κ} {cs : List (Call κ)}
    (h : call S b w c = (.done, w')) : run S b (c :: cs) w = run S b cs w' := by
  rw [run, h]
  rfl

/-! ## Timers entered before -/

/-- The timers of `a` were entered before those of the world. -/
def World.before (a : List (Nat × κ)) (w : World σ κ) : World σ κ := { w with added := a ++ w.added }

section

variable {S : Store σ κ} {b : Behaviour κ} {w : World σ κ} {a : List (Nat × κ)}

theorem addAll_before (l : List (κ × Nat)) : addAll S (w.before a) l = (addAll S w l).map (World.before a) := by
  induction l generalizing w with
  | nil => rfl
  | cons e l ih =>
    have hadd : addTime S (w.before a) e.1 e.2 = (addTime S w e.1 e.2).map (World.before a) := by
      unfold addTime
      rw [Option.map_map]
      refine Option.map_congr fun s _ => ?_
      simp only [World.before, World.set, Function.comp_apply, List.append_assoc]
    unfold addAll
    rw [hadd, Option.bind_map, Option.map_bind]
    exact Option.bind_congr fun w₁ _ => ih

theorem callAll_before (ks : List κ) :
    callAll S b ks (w.before a) = Prod.map id (World.before a) (callAll S b ks w) := by
  induction ks generalizing w with
  | nil => rfl
  | cons k ks ih =>
    let w₀ : World σ κ := { w with calls := w.calls ++ [(S.now w.store, k)] }
    have hadds : addAll S (w₀.before a) (b w₀.calls).adds = (addAll S w₀ (b w₀.calls).adds).map (World.before a) :=
      addAll_before _
    have hcall : ∀ v : World σ κ, callAll S b (k :: ks) v =
        match addAll S { v with calls := v.calls ++ [(S.now v.store, k)] }
          (b (v.calls ++ [(S.now v.store, k)])).adds with
        | none => (.aborted, { v with calls := v.calls ++ [(S.now v.store, k)] })
        | some w' => if (b (v.calls ++ [(S.now v.store, k)])).raises then (.raised, w') else callAll S b ks w' :=
      fun _ => rfl
    rw [hcall, hcall]
    show (match addAll S (w₀.before a) (b w₀.calls).adds with
      | none => (Exit.aborted, w₀.before a)
      | some w' => if (b w₀.calls).raises then (.raised, w') else callAll S b ks w') = Prod.map id (World.before a)
        (match addAll S w₀ (b w₀.calls).adds with
        | none => (Exit.aborted, w₀)
        | some w' => if (b w₀.calls).raises then (.raised, w') else callAll S b ks w')
    rw [hadds]
    cases addAll S w₀ (b w₀.calls).adds with
    | none => rfl
    | some w₁ =>
      cases hraises : (b w₀.calls).raises with
      | true => rfl
      | false => exact ih

/-- What is called does not depend on what was entered before. -/
theorem rounds_before (n : Nat) :
    rounds S b n (w.before a) = Prod.map id (World.before a) (rounds S b n w) := by
  induction n generalizing w with
  | zero => rfl
  | succ n ih =>
    unfold rounds
    have hstore : (w.before a).store = w.store := rfl
    rw [hstore]
    cases S.shift w.store with
    | none => rfl
    | some s =>
      simp only
      have hset : ((w.before a).set s).set (S.detach s).2 = World.before a ((w.set s).set (S.detach s).2) := rfl
      rw [hset, callAll_before]
      generalize callAll S b (S.detach s).1 ((w.set s).set (S.detach s).2) = x
      unfold onDone
      simp only [Prod.map_fst, Prod.map_snd, id]
      cases hx : x.1 with
      | done => exact ih
      | raised => rfl
      | aborted => rfl

end

/-! ## Two stores -/

/-- The operations keep a relation between two stores, `R'` between `shift` and `detach`. -/
structure Bisim (S : Store σ κ) (T : Store τ κ) (R R' : σ → τ → Prop) : Prop where
  now : ∀ {s q}, R s q → S.now s = T.now q
  add : ∀ {s q}, R s q → ∀ k t, Option.Rel R (S.add s k t) (T.add q k t)
  todo : ∀ {s q}, R s q → ∀ t, S.todo s t = T.todo q t
  shift : ∀ {s q}, R s q → Option.Rel R' (S.shift s) (T.shift q)
  detach : ∀ {s q}, R' s q → (S.detach s).1 = (T.detach q).1 ∧ R (S.detach s).2 (T.detach q).2

/-- The same has happened over both stores. -/
structure Same (R R' : σ → τ → Prop) (w : World σ κ) (v : World τ κ) : Prop where
  store : R w.store v.store
  calls : w.calls = v.calls
  added : w.added = v.added
  trace : List.Forall₂ (fun s q => R s q ∨ R' s q) w.trace v.trace

section

variable {S : Store σ κ} {T : Store τ κ} {R R' : σ → τ → Prop} {b : Behaviour κ} {w : World σ κ} {v : World τ κ}

theorem same_start {s : σ} {q : τ} (h : R s q) : Same (κ := κ) R R' (start s) (start q) :=
  ⟨h, rfl, rfl, .cons (Or.inl h) .nil⟩

theorem rel_cases {α β : Type*} {r : α → β → Prop} {x : Option α} {y : Option β} (h : Option.Rel r x y) :
    x = none ∧ y = none ∨ ∃ a c, x = some a ∧ y = some c ∧ r a c := by
  cases h with
  | none => exact Or.inl ⟨rfl, rfl⟩
  | some h => exact Or.inr ⟨_, _, rfl, rfl, h⟩

theorem Same.before (h : Same R R' w v) (a : List (Nat × κ)) : Same R R' (w.before a) (v.before a) :=
  ⟨h.store, h.calls, congrArg (a ++ ·) h.added, h.trace⟩

theorem Same.set (h : Same R R' w v) {s : σ} {q : τ} (hs : R s q) : Same R R' (w.set s) (v.set q) :=
  ⟨hs, h.calls, h.added, List.rel_append h.trace (.cons (Or.inl hs) .nil)⟩

theorem Same.addTime (hb : Bisim S T R R') (h : Same R R' w v) (k : κ) (t : Nat) :
    Option.Rel (Same R R') (addTime S w k t) (addTime T v k t) := by
  unfold Timers.addTime
  rcases rel_cases (hb.add h.store k t) with ⟨hs, hq⟩ | ⟨s, q, hs, hq, hr⟩
  · rw [hs, hq]
    exact .none
  · rw [hs, hq]
    have hset := h.set hr
    refine .some ⟨hr, hset.calls, ?_, hset.trace⟩
    show w.added ++ [(S.now w.store + t, k)] = v.added ++ [(T.now v.store + t, k)]
    rw [h.added, hb.now h.store]

theorem Same.addAll (hb : Bisim S T R R') (h : Same R R' w v) (l : List (κ × Nat)) :
    Option.Rel (Same R R') (addAll S w l) (addAll T v l) := by
  induction l generalizing w v with
  | nil => exact .some h
  | cons a l ih =>
    unfold Timers.addAll
    rcases rel_cases (h.addTime hb a.1 a.2) with ⟨hw, hv⟩ | ⟨w', v', hw, hv, h'⟩
    · rw [hw, hv]
      exact .none
    · rw [hw, hv]
      exact ih h'

/-- Two runs end in the same way, and the same has happened in them. -/
def Agree (R R' : σ → τ → Prop) (x : Exit × World σ κ) (y : Exit × World τ κ) : Prop :=
  x.1 = y.1 ∧ Same R R' x.2 y.2

/-- What ends normally over one store does so over the other. -/
theorem Agree.of_done {x : Exit × World σ κ} {y : Exit × World τ κ} (h : Agree R R' x y) (hx : x = (.done, w)) :
    ∃ v, y = (.done, v) ∧ Same R R' w v := by
  subst hx
  exact ⟨y.2, Prod.ext h.1.symm rfl, h.2⟩

theorem Same.callAll (hb : Bisim S T R R') (h : Same R R' w v) (ks : List κ) :
    Agree R R' (callAll S b ks w) (callAll T b ks v) := by
  induction ks generalizing w v with
  | nil => exact ⟨rfl, h⟩
  | cons k ks ih =>
    have hcalls : w.calls ++ [(S.now w.store, k)] = v.calls ++ [(T.now v.store, k)] := by
      rw [h.calls, hb.now h.store]
    unfold Timers.callAll
    simp only [hcalls]
    generalize v.calls ++ [(T.now v.store, k)] = calls
    have h₁ : Same R R' { w with calls := calls } { v with calls := calls } := ⟨h.store, rfl, h.added, h.trace⟩
    rcases rel_cases (h₁.addAll hb (b calls).adds) with ⟨hw, hv⟩ | ⟨w', v', hw, hv, h'⟩
    · rw [hw, hv]
      exact ⟨rfl, h₁⟩
    · rw [hw, hv]
      cases (b calls).raises with
      | true => exact ⟨rfl, h'⟩
      | false => exact ih h'

theorem Agree.onDone {x : Exit × World σ κ} {y : Exit × World τ κ} (h : Agree R R' x y)
    {f : World σ κ → Exit × World σ κ} {g : World τ κ → Exit × World τ κ}
    (hf : ∀ {w v}, Same R R' w v → Agree R R' (f w) (g v)) : Agree R R' (onDone x f) (onDone y g) := by
  unfold Timers.onDone
  rw [h.1]
  cases hy : y.1 with
  | done => exact hf h.2
  | raised => exact h
  | aborted => exact h

theorem Agree.unlessAborted {x : Exit × World σ κ} {y : Exit × World τ κ} (h : Agree R R' x y)
    {f : World σ κ → Exit × World σ κ} {g : World τ κ → Exit × World τ κ}
    (hf : ∀ {w v}, Same R R' w v → Agree R R' (f w) (g v)) :
    Agree R R' (unlessAborted x f) (unlessAborted y g) := by
  unfold Timers.unlessAborted
  rw [h.1]
  cases hy : y.1 with
  | done => exact hf h.2
  | raised => exact hf h.2
  | aborted => exact h

theorem Same.detach (hb : Bisim S T R R') (h : Same R R' w v) {s : σ} {q : τ} (hr : R' s q) :
    Same R R' ((w.set s).set (S.detach s).2) ((v.set q).set (T.detach q).2) := by
  have hr' := (hb.detach hr).2
  refine ⟨hr', h.calls, h.added, ?_⟩
  exact List.rel_append (List.rel_append h.trace (.cons (Or.inr hr) .nil)) (.cons (Or.inl hr') .nil)

theorem Same.rounds (hb : Bisim S T R R') (h : Same R R' w v) (n : Nat) :
    Agree R R' (rounds S b n w) (rounds T b n v) := by
  induction n generalizing w v with
  | zero => exact ⟨rfl, h⟩
  | succ n ih =>
    unfold Timers.rounds
    rcases rel_cases (hb.shift h.store) with ⟨hs, hq⟩ | ⟨s, q, hs, hq, hr⟩
    · rw [hs, hq]
      exact ⟨rfl, h⟩
    · rw [hs, hq]
      simp only
      rw [← (hb.detach hr).1]
      exact ((h.detach hb hr).callAll hb (S.detach s).1).onDone fun h' => ih h'

theorem Same.call (hb : Bisim S T R R') (h : Same R R' w v) (c : Call κ) :
    Agree R R' (call S b w c) (call T b v c) := by
  cases c with
  | add k t =>
    unfold Timers.call
    rcases rel_cases (h.addTime hb k t) with ⟨hw, hv⟩ | ⟨w', v', hw, hv, h'⟩
    · simp only [hw, hv]
      exact ⟨rfl, h⟩
    · simp only [hw, hv]
      exact ⟨rfl, h'⟩
  | update t =>
    unfold Timers.call
    simp only [hb.todo h.store t]
    cases T.todo v.store t with
    | none => exact ⟨rfl, h⟩
    | some n => exact h.rounds hb n

/-- **Runs over the two stores are the same.** -/
theorem run_bisim (hb : Bisim S T R R') (h : Same R R' w v) (cs : List (Call κ)) :
    Agree R R' (run S b cs w) (run T b cs v) := by
  induction cs generalizing w v with
  | nil => exact ⟨rfl, h⟩
  | cons c cs ih => exact (h.call hb c).unlessAborted fun h' => ih h'

end

/-! ### The callbacks over the two stores -/

section

variable {S : Store σ κ} {T : Store τ κ} {R R' : σ → τ → Prop} {b : Behaviour κ} {w : World σ κ} {v : World τ κ}
  {P : Deed κ → List κ → Prop}

theorem rel_forall {α β : Type*} {r : α → β → Prop} {x : Option α} {y : Option β} (h : Option.Rel r x y)
    {p : α → Prop} {q : β → Prop} (hpq : ∀ a c, r a c → (p a ↔ q c)) : (∀ a ∈ x, p a) ↔ ∀ c ∈ y, q c := by
  rcases rel_cases h with ⟨rfl, rfl⟩ | ⟨a, c, rfl, rfl, hr⟩
  · simp
  · simpa using hpq a c hr

theorem Same.eachAll (hb : Bisim S T R R') (h : Same R R' w v) (ks : List κ) :
    EachAll S b P ks w ↔ EachAll T b P ks v := by
  induction ks generalizing w v with
  | nil => exact Iff.rfl
  | cons k ks ih =>
    have hcalls : w.calls ++ [(S.now w.store, k)] = v.calls ++ [(T.now v.store, k)] := by
      rw [h.calls, hb.now h.store]
    unfold EachAll
    simp only [hcalls]
    generalize v.calls ++ [(T.now v.store, k)] = calls
    have h₁ : Same R R' { w with calls := calls } { v with calls := calls } := ⟨h.store, rfl, h.added, h.trace⟩
    refine and_congr Iff.rfl (rel_forall (h₁.addAll hb (b calls).adds) fun w' v' h' => ?_)
    exact imp_congr Iff.rfl (ih h')

theorem Same.eachRounds (hb : Bisim S T R R') (h : Same R R' w v) (n : Nat) :
    EachRounds S b P n w ↔ EachRounds T b P n v := by
  induction n generalizing w v with
  | zero => exact Iff.rfl
  | succ n ih =>
    unfold EachRounds
    refine rel_forall (hb.shift h.store) fun s q hr => ?_
    have h₁ := h.detach hb hr
    simp only [(hb.detach hr).1]
    have hcall := h₁.callAll (b := b) hb (T.detach q).1
    rw [h₁.eachAll hb, hcall.1]
    exact and_congr Iff.rfl (imp_congr Iff.rfl (ih hcall.2))

theorem Same.eachCall (hb : Bisim S T R R') (h : Same R R' w v) (c : Call κ) :
    EachCall S b P w c ↔ EachCall T b P v c := by
  cases c with
  | add k t => exact Iff.rfl
  | update t =>
    unfold EachCall
    simp only [hb.todo h.store t]
    exact forall₂_congr fun n _ => h.eachRounds hb n

/-- The same callbacks are called over the two stores. -/
theorem Same.eachRun (hb : Bisim S T R R') (h : Same R R' w v) (cs : List (Call κ)) :
    EachRun S b P cs w ↔ EachRun T b P cs v := by
  induction cs generalizing w v with
  | nil => exact Iff.rfl
  | cons c cs ih =>
    have hcall := h.call (b := b) hb c
    unfold EachRun
    rw [h.eachCall hb, hcall.1]
    exact and_congr Iff.rfl (imp_congr Iff.rfl (ih hcall.2))

end

end Timers
