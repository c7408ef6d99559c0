import Mathlib.Data.Fintype.Card
import Mathlib.Data.Set.Finite.Basic
import Mathlib.Logic.Relation

/-!
# Agendas

`act i m`: doing the task `i` with the memory `m` gives tasks to be done next, before the rest of the agenda, and the
new memory. A recursive procedure with shared memory is one: a call is a task, and so is each step of a body.

- `Done`: from some tasks and memory, all is done in the end. An agenda is done part by part (`done_append`).
- `Met`: a task that is done at some time, with the memory of that time; `Within`: a task that is done as a part of
  another one.
- `run`: the same as a recursion with a depth. Some depth is enough iff the task gets done (`done_iff_run`).
- When only finitely many tasks and memories are met, all is done iff no task is done within itself with the same memory
  (`done_iff`).
- A task that is done within itself goes round: whatever is reached in it comes again before the task does (`lap`), and
  whatever is met in it comes from a task that is met in it (`origin_of_self`).
-/

namespace Agenda

open Relation

variable {I M : Type*}

inductive Step (act : I → M → List I × M) : List I × M → List I × M → Prop
  | task (i : I) (l : List I) (m : M) : Step act (i :: l, m) ((act i m).1 ++ l, (act i m).2)

def Done (act : I → M → List I × M) (l : List I) (m m' : M) : Prop := ReflTransGen (Step act) (l, m) ([], m')

def Met (act : I → M → List I × M) (s : List I × M) (c : I × M) : Prop :=
  ∃ l, ReflTransGen (Step act) s (c.1 :: l, c.2)

/-- `c'` is met while `c` is done. -/
def Within (act : I → M → List I × M) (c c' : I × M) : Prop :=
  ∃ l, TransGen (Step act) ([c.1], c.2) (c'.1 :: l, c'.2)

/-- The memory after a task, when tasks are nested in it less than `n` deep. -/
def run (act : I → M → List I × M) : Nat → M → I → Option M
  | 0, _, _ => none
  | n + 1, m, i => (act i m).1.foldlM (run act n) (act i m).2

variable {act : I → M → List I × M} {s t u : List I × M} {c c' c'' : I × M} {i : I} {l l' : List I} {m m' m'' : M}

theorem step_unique : Relator.RightUnique (Step act) := by
  intro s t u h h'
  cases h
  cases h'
  rfl

theorem not_step_nil : ¬ Step act ([], m) s := nofun

theorem step_append (h : Step act s t) (l : List I) : Step act (s.1 ++ l, s.2) (t.1 ++ l, t.2) := by
  obtain ⟨i, l', m⟩ := h
  simp only [List.cons_append, List.append_assoc]
  exact Step.task i (l' ++ l) m

theorem steps_append (h : ReflTransGen (Step act) s t) (l : List I) :
    ReflTransGen (Step act) (s.1 ++ l, s.2) (t.1 ++ l, t.2) :=
  h.lift (fun s => (s.1 ++ l, s.2)) fun _ _ hstep => step_append hstep l

/-! ## Part by part -/

theorem Done.nil (m : M) : Done act [] m m := .refl

theorem Done.cons (h : Done act (act i m).1 (act i m).2 m') (h' : Done act l m' m'') : Done act (i :: l) m m'' :=
  (ReflTransGen.head (Step.task i l m) (steps_append h l)).trans h'

theorem done_of_append (h : Done act (l ++ l') m m'') : ∃ m', Done act l m m' ∧ Done act l' m' m'' := by
  rw [Done] at h
  generalize hs : (l ++ l', m) = s at h
  induction h using ReflTransGen.head_induction_on generalizing l m with
  | refl =>
    obtain ⟨hl, rfl⟩ := Prod.mk.inj hs
    obtain ⟨rfl, rfl⟩ := List.append_eq_nil_iff.1 hl
    exact ⟨m, Done.nil m, Done.nil m⟩
  | head hstep hrest ih =>
    subst hs
    cases l with
    | nil => exact ⟨m, Done.nil m, ReflTransGen.head hstep hrest⟩
    | cons i l =>
      cases hstep
      obtain ⟨m', hl, hl'⟩ := ih (Prod.ext (List.append_assoc (act i m).1 l l') rfl)
      exact ⟨m', ReflTransGen.head (Step.task i l m) hl, hl'⟩

theorem done_append (h : Done act l m m') (h' : Done act l' m' m'') : Done act (l ++ l') m m'' :=
  (steps_append h l').trans h'

theorem Met.tail (h : Done act [i] m m') (hc : Met act (l, m') c) : Met act (i :: l, m) c := by
  obtain ⟨l', hl'⟩ := hc
  exact ⟨l', (steps_append h l).trans hl'⟩

/-- Where all that is met gets done, so does the agenda. -/
theorem done_of_met (h : ∀ c, Met act (l, m) c → ∃ m', Done act [c.1] c.2 m') : ∃ m', Done act l m m' := by
  induction l generalizing m with
  | nil => exact ⟨m, Done.nil m⟩
  | cons i l ih =>
    obtain ⟨m', hi⟩ := h (i, m) ⟨l, .refl⟩
    obtain ⟨m'', hl⟩ := ih fun c hc => h c (hc.tail hi)
    exact ⟨m'', done_append hi hl⟩

theorem done_of_forall (h : ∀ i ∈ l, ∀ m, ∃ m', Done act [i] m m') (m : M) : ∃ m', Done act l m m' := by
  induction l generalizing m with
  | nil => exact ⟨m, Done.nil m⟩
  | cons i l ih =>
    obtain ⟨hi, hl⟩ := List.forall_mem_cons.1 h
    obtain ⟨m', hm'⟩ := hi m
    obtain ⟨m'', hm''⟩ := ih hl m'
    exact ⟨m'', done_append hm' hm''⟩

theorem acc_of_steps (h : ReflTransGen (Step act) s ([], m')) : Acc (Function.swap (Step act)) s := by
  induction h using ReflTransGen.head_induction_on with
  | refl => exact ⟨_, fun _ hstep => absurd hstep not_step_nil⟩
  | head hstep _ ih =>
    refine ⟨_, fun _ hstep' => ?_⟩
    rwa [← step_unique hstep hstep']

/-- What always goes on to something like it does not get done. -/
theorem not_done_of_goes_on {P : I × M → Prop}
    (hP : ∀ c, P c → ∃ c', TransGen (Step act) ([c.1], c.2) ([c'.1], c'.2) ∧ P c') (hc : P c) :
    ¬ ∃ m', Done act [c.1] c.2 m' := by
  rintro ⟨m', hdone⟩
  have hacc := (acc_of_steps hdone).transGen
  generalize hs : ([c.1], c.2) = s at hacc
  clear hdone
  induction hacc generalizing c with
  | intro s _ ih =>
    subst hs
    obtain ⟨c', hsteps, hc'⟩ := hP c hc
    exact ih _ (transGen_swap.2 hsteps) hc' rfl

/-! ## The recursion -/

theorem foldlM_le {f f' : M → I → Option M} (h : ∀ m i m', f m i = some m' → f' m i = some m')
    (hl : l.foldlM f m = some m') : l.foldlM f' m = some m' := by
  induction l generalizing m with
  | nil => exact hl
  | cons i l ih =>
    rw [List.foldlM_cons, Option.bind_eq_bind, Option.bind_eq_some_iff] at hl ⊢
    obtain ⟨m₁, hi, hl⟩ := hl
    exact ⟨m₁, h m i m₁ hi, ih hl⟩

/-- A greater depth than enough is enough. -/
theorem run_le {n k : Nat} (hnk : n ≤ k) (h : run act n m i = some m') : run act k m i = some m' := by
  induction n generalizing k m i m' with
  | zero => cases h
  | succ n ih =>
    obtain ⟨k, rfl⟩ : ∃ j, k = j + 1 := ⟨k - 1, (Nat.succ_pred_eq_of_pos (Nat.lt_of_lt_of_le n.succ_pos hnk)).symm⟩
    exact foldlM_le (fun _ _ _ hi => ih (Nat.le_of_succ_le_succ hnk) hi) h

theorem done_of_foldlM {n : Nat} (h : ∀ m i m', run act n m i = some m' → Done act [i] m m')
    (hl : l.foldlM (run act n) m = some m') : Done act l m m' := by
  induction l generalizing m with
  | nil =>
    obtain rfl := Option.some.inj hl
    exact Done.nil m
  | cons i l ih =>
    rw [List.foldlM_cons, Option.bind_eq_bind, Option.bind_eq_some_iff] at hl
    obtain ⟨m₁, hi, hl⟩ := hl
    exact done_append (h m i m₁ hi) (ih hl)

theorem done_of_run {n : Nat} (h : run act n m i = some m') : Done act [i] m m' := by
  induction n generalizing m i m' with
  | zero => cases h
  | succ n ih => exact Done.cons (done_of_foldlM (fun _ _ _ hi => ih hi) h) (Done.nil m')

theorem foldlM_of_done (h : Done act l m m') : ∃ n, l.foldlM (run act n) m = some m' := by
  rw [Done] at h
  generalize hs : (l, m) = s at h
  induction h using ReflTransGen.head_induction_on generalizing l m with
  | refl =>
    obtain ⟨rfl, rfl⟩ := Prod.mk.inj hs
    exact ⟨0, rfl⟩
  | head hstep _ ih =>
    subst hs
    obtain ⟨i, l, m⟩ := hstep
    obtain ⟨n, hn⟩ := ih rfl
    rw [List.foldlM_append, Option.bind_eq_bind, Option.bind_eq_some_iff] at hn
    obtain ⟨m₁, hi, hl⟩ := hn
    refine ⟨n + 1, ?_⟩
    rw [List.foldlM_cons, Option.bind_eq_bind, Option.bind_eq_some_iff]
    exact ⟨m₁, hi, foldlM_le (fun _ _ _ => run_le (Nat.le_succ n)) hl⟩

theorem done_iff_run : Done act [i] m m' ↔ ∃ n, run act n m i = some m' := by
  constructor
  · intro h
    obtain ⟨n, hn⟩ := foldlM_of_done h
    rw [List.foldlM_cons, Option.bind_eq_bind, Option.bind_eq_some_iff] at hn
    obtain ⟨m₁, hi, hm₁⟩ := hn
    obtain rfl := Option.some.inj hm₁
    exact ⟨n, hi⟩
  · rintro ⟨n, hn⟩
    exact done_of_run hn

/-! ## Tasks within tasks -/

theorem Met.within (h : Met act s c) (h' : Within act c c') : Met act s c' := by
  obtain ⟨l, hl⟩ := h
  obtain ⟨l', hl'⟩ := h'
  exact ⟨l' ++ l, hl.trans (steps_append hl'.to_reflTransGen l)⟩

theorem Within.trans (h : Within act c c') (h' : Within act c' c'') : Within act c c'' := by
  obtain ⟨l, hl⟩ := h
  obtain ⟨l', hl'⟩ := h'
  exact ⟨l' ++ l, hl.trans_left (steps_append hl'.to_reflTransGen l)⟩

theorem within_of_met (h : Met act ((act c.1 c.2).1 ++ [], (act c.1 c.2).2) c') : Within act c c' := by
  obtain ⟨l, hl⟩ := h
  exact ⟨l, TransGen.head' (Step.task c.1 [] c.2) hl⟩

/-- With a task that is done within itself, whatever is reached comes again before the task does. -/
theorem lap (h : TransGen (Step act) ([c.1], c.2) (c.1 :: l, c.2)) (hs : ReflTransGen (Step act) ([c.1], c.2) s) :
    ∃ t l', s = (t.1 ++ l', t.2) ∧ ReflTransGen (Step act) ([c.1], c.2) t ∧ TransGen (Step act) t (c.1 :: l, c.2) := by
  induction hs with
  | refl => exact ⟨([c.1], c.2), [], by rw [List.append_nil], .refl, h⟩
  | tail _ hstep ih =>
    obtain ⟨t, l', rfl, ht, hback⟩ := ih
    obtain ⟨u, hu, hrest⟩ := TransGen.head'_iff.1 hback
    obtain rfl := step_unique hstep (step_append hu l')
    rcases reflTransGen_iff_eq_or_transGen.1 hrest with heq | htrans
    · subst heq
      exact ⟨([c.1], c.2), l ++ l', rfl, .refl, h⟩
    · exact ⟨u, l', rfl, ht.tail hu, htrans⟩

/-- What is left to do within a task comes from a task within it. -/
theorem origin (h : TransGen (Step act) ([c.1], c.2) s) (hi : i ∈ s.1) :
    ∃ c', Met act ([c.1], c.2) c' ∧ i ∈ (act c'.1 c'.2).1 := by
  induction h with
  | single hstep =>
    cases hstep
    rw [List.append_nil] at hi
    exact ⟨c, ⟨[], .refl⟩, hi⟩
  | tail hsteps hstep ih =>
    obtain ⟨j, l, m⟩ := hstep
    rcases List.mem_append.1 hi with hi | hi
    · exact ⟨(j, m), ⟨l, hsteps.to_reflTransGen⟩, hi⟩
    · exact ih (List.mem_cons_of_mem j hi)

theorem origin_of_self (h : Within act c c) (hc : Met act ([c.1], c.2) c') :
    ∃ c'', Met act ([c.1], c.2) c'' ∧ c'.1 ∈ (act c''.1 c''.2).1 := by
  obtain ⟨l, hl⟩ := hc
  rcases reflTransGen_iff_eq_or_transGen.1 hl with heq | htrans
  · obtain ⟨hcons, -⟩ := Prod.mk.inj heq
    obtain ⟨hcc, -⟩ := List.cons_eq_cons.1 hcons
    obtain ⟨l', hl'⟩ := h
    exact origin hl' (by rw [hcc]; exact List.mem_cons_self)
  · exact origin htrans List.mem_cons_self

theorem not_within_self (h : Done act l m m') (hc : Met act (l, m) c) : ¬ Within act c c := by
  rintro ⟨l₁, hself⟩
  obtain ⟨l₂, hmet⟩ := hc
  -- All is done from where the task is met, so the task itself is done.
  have hdone : Done act ([c.1] ++ l₂) c.2 m' := by
    rcases ReflTransGen.total_of_right_unique step_unique hmet h with hrest | hrest
    · exact hrest
    · rcases ReflTransGen.cases_head hrest with heq | ⟨u, hu, -⟩
      · cases heq
      · exact absurd hu not_step_nil
  obtain ⟨m₁, hm₁, -⟩ := done_of_append hdone
  obtain ⟨t, l', ht, -, hback⟩ := lap hself hm₁
  obtain ⟨hnil, -⟩ := Prod.mk.inj ht
  obtain ⟨htnil, -⟩ := List.append_eq_nil_iff.1 hnil.symm
  obtain ⟨u, hu, -⟩ := TransGen.head'_iff.1 hback
  rw [← Prod.mk.eta (p := t), htnil] at hu
  exact not_step_nil hu

/-- Only finitely many tasks and memories are met: then all is done iff no task is done within itself with the same
memory. -/
theorem done_iff (hfin : {c | Met act (l, m) c}.Finite) :
    (∃ m', Done act l m m') ↔ ∀ c, Met act (l, m) c → ¬ Within act c c := by
  refine ⟨fun ⟨m', h⟩ c hc => not_within_self h hc, fun h => done_of_met ?_⟩
  let inner : {c | Met act (l, m) c} → {c | Met act (l, m) c} → Prop := fun a b => Within act b.1 a.1
  have : Finite {c | Met act (l, m) c} := hfin
  have : IsTrans _ inner := ⟨fun _ _ _ hab hbc => hbc.trans hab⟩
  have : Std.Irrefl inner := ⟨fun a => h a.1 a.2⟩
  have hwf : WellFounded inner := Finite.wellFounded_of_trans_of_irrefl inner
  intro c hc
  -- Induction on what is done within the task.
  induction hd : (⟨c, hc⟩ : {c | Met act (l, m) c}) using hwf.induction generalizing c with
  | h a ih =>
    subst hd
    obtain ⟨m', hm'⟩ := done_of_met fun c' hc' =>
      ih ⟨c', hc.within (within_of_met hc')⟩ (within_of_met hc') c' (hc.within (within_of_met hc')) rfl
    exact ⟨m', ReflTransGen.head (Step.task c.1 [] c.2) hm'⟩

end Agenda
