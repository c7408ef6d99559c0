import Mathlib.Data.List.Basic

/-!
# Runs of a partial step function

A system is a step function `step : σ → ε → Option σ`: the state after an event, `none` when the event is not
enabled. `run step s es` is the state after the events `es`.

- runs compose (`run_append`, `run_concat`), and an invariant of every step is one of every run (`run_inv`);
- `Along step C s es`: every step of the run meets a condition on its event and the state before it. An invariant
  of the steps that meet `C` holds after every run along `C` (`along_inv`);
- `Always step I s es`: every state the run passes through satisfies `I`. When exactly the steps that meet `C` keep
  `I`, the two are the same (`always_iff_along`);
- two conditions that say the same of the states a run along them can reach say the same of its steps
  (`along_congr_of_inv`).
-/

namespace StepSys

variable {σ ε : Type*}

/-- The state after the events, when each of them is enabled in turn. -/
def run (step : σ → ε → Option σ) : σ → List ε → Option σ
  | s, [] => some s
  | s, e :: es => (step s e).bind fun t => run step t es

variable {step : σ → ε → Option σ}

@[simp] theorem run_nil (s : σ) : run step s [] = some s := rfl

theorem run_cons {s t : σ} {e : ε} {es : List ε} :
    run step s (e :: es) = some t ↔ ∃ u, step s e = some u ∧ run step u es = some t := by
  simp only [run, Option.bind_eq_some_iff]

theorem run_append {s t : σ} {es fs : List ε} :
    run step s (es ++ fs) = some t ↔ ∃ u, run step s es = some u ∧ run step u fs = some t := by
  induction es generalizing s with
  | nil => simp
  | cons e es ih =>
    simp only [List.cons_append, run_cons, ih]
    constructor
    · rintro ⟨u, hu, v, hv, hf⟩; exact ⟨v, ⟨u, hu, hv⟩, hf⟩
    · rintro ⟨v, ⟨u, hu, hv⟩, hf⟩; exact ⟨u, hu, v, hv, hf⟩

theorem run_concat {s t : σ} {e : ε} {es : List ε} :
    run step s (es ++ [e]) = some t ↔ ∃ u, run step s es = some u ∧ step u e = some t := by
  rw [run_append]
  simp only [run_cons, run_nil, Option.some.injEq, exists_eq_right]

/-- An invariant of every step is an invariant of every run. -/
theorem run_inv {I : σ → Prop} (hI : ∀ {s e t}, I s → step s e = some t → I t) {s t : σ} {es : List ε}
    (hs : I s) (h : run step s es = some t) : I t := by
  induction es generalizing s with
  | nil => cases h; exact hs
  | cons e es ih =>
    obtain ⟨u, hu, hr⟩ := run_cons.1 h
    exact ih (hI hs hu) hr

/-! ## Conditions along a run -/

/-- Every step of the run meets `C`, a condition on the state before the step and on its event. -/
def Along (step : σ → ε → Option σ) (C : σ → ε → Prop) : σ → List ε → Prop
  | _, [] => True
  | s, e :: es => ∀ t ∈ step s e, C s e ∧ Along step C t es

/-- Every state of the run satisfies `I`, the first and the last included. -/
def Always (step : σ → ε → Option σ) (I : σ → Prop) : σ → List ε → Prop
  | s, [] => I s
  | s, e :: es => I s ∧ ∀ t ∈ step s e, Always step I t es

variable {C : σ → ε → Prop} {I : σ → Prop}

instance Along.decidable [∀ s e, Decidable (C s e)] : ∀ s es, Decidable (Along step C s es)
  | _, [] => isTrue trivial
  | s, e :: es =>
    have : ∀ t, Decidable (Along step C t es) := fun t => Along.decidable t es
    inferInstanceAs (Decidable (∀ t ∈ step s e, C s e ∧ Along step C t es))

theorem along_append {s : σ} {es fs : List ε} (h : Along step C s (es ++ fs)) :
    Along step C s es ∧ ∀ t ∈ run step s es, Along step C t fs := by
  induction es generalizing s with
  | nil => exact ⟨trivial, fun t ht => by cases ht; exact h⟩
  | cons e es ih =>
    refine ⟨fun t ht => ⟨(h t ht).1, (ih (h t ht).2).1⟩, ?_⟩
    intro t ht
    obtain ⟨u, hu, hr⟩ := run_cons.1 ht
    exact (ih (h u hu).2).2 t hr

/-- An invariant of the steps that meet `C` holds after every run along `C`. -/
theorem along_inv (hI : ∀ {s e t}, I s → C s e → step s e = some t → I t) {s t : σ} {es : List ε} (hs : I s)
    (hC : Along step C s es) (h : run step s es = some t) : I t := by
  induction es generalizing s with
  | nil => cases h; exact hs
  | cons e es ih =>
    obtain ⟨u, hu, hr⟩ := run_cons.1 h
    have hc := hC u hu
    exact ih (hI hs hc.1 hu) hc.2 hr

theorem Always.start {s : σ} : ∀ {es : List ε}, Always step I s es → I s
  | [], h => h
  | _ :: _, h => h.1

/-- An invariant of every step holds of every state of every run. -/
theorem always_of_inv (hI : ∀ {s e t}, I s → step s e = some t → I t) {s : σ} (hs : I s) :
    ∀ es : List ε, Always step I s es
  | [] => hs
  | _ :: es => ⟨hs, fun _ ht => always_of_inv hI (hI hs ht) es⟩

/-- An invariant of the steps that meet `C` holds of every state of every run along `C`. -/
theorem always_of_along (hI : ∀ {s e t}, I s → C s e → step s e = some t → I t) {s : σ} (hs : I s) :
    ∀ {es : List ε}, Along step C s es → Always step I s es
  | [], _ => hs
  | _ :: _, hC => ⟨hs, fun t ht => always_of_along hI (hI hs (hC t ht).1 ht) (hC t ht).2⟩

/-- Two conditions on the steps of a run that are the same as long as the steps so far met them. -/
theorem along_congr_of_inv {D : σ → ε → Prop} (hI : ∀ {s e t}, I s → C s e → step s e = some t → I t)
    (hCD : ∀ {s e t}, I s → step s e = some t → (C s e ↔ D s e)) {s : σ} (hs : I s) :
    ∀ es : List ε, Along step C s es ↔ Along step D s es
  | [] => Iff.rfl
  | e :: es => by
    constructor
    · intro h t ht
      have hc := (h t ht).1
      exact ⟨(hCD hs ht).1 hc, (along_congr_of_inv hI hCD (hI hs hc ht) es).1 (h t ht).2⟩
    · intro h t ht
      have hc := (hCD hs ht).2 (h t ht).1
      exact ⟨hc, (along_congr_of_inv hI hCD (hI hs hc ht) es).2 (h t ht).2⟩

/-- A condition that the events meet in every state. -/
theorem along_of_forall {s : σ} : ∀ {es : List ε}, (∀ e ∈ es, ∀ s, C s e) → Along step C s es
  | [], _ => trivial
  | e :: _, h => fun _ _ => ⟨h e List.mem_cons_self s, along_of_forall fun e' he' => h e' (List.mem_cons_of_mem _ he')⟩

/-- A condition on the events only, when no event is refused. -/
theorem along_iff_forall {D : ε → Prop} (htotal : ∀ s e, (step s e).isSome) (s : σ) (es : List ε) :
    Along step (fun _ e => D e) s es ↔ ∀ e ∈ es, D e := by
  induction es generalizing s with
  | nil => simp [Along]
  | cons e es ih =>
    obtain ⟨t, ht⟩ := Option.isSome_iff_exists.1 (htotal s e)
    simp [Along, ht, ih]

/-- `Always` with a stronger predicate. -/
theorem Always.imp {J : σ → Prop} (hIJ : ∀ s, I s → J s) {s : σ} :
    ∀ {es : List ε}, Always step I s es → Always step J s es
  | [], h => hIJ _ h
  | _ :: _, h => ⟨hIJ _ h.1, fun t ht => (h.2 t ht).imp hIJ⟩

/-- When, under an invariant `J` of every step, exactly the steps that meet `C` keep `I`, the states of a run satisfy
`I` iff its steps meet `C`. -/
theorem always_iff_along_of_inv {J : σ → Prop} (hJ : ∀ {s e t}, J s → step s e = some t → J t)
    (hI : ∀ {s e t}, J s → I s → step s e = some t → (I t ↔ C s e)) {s : σ} (hj : J s) (hs : I s) :
    ∀ es : List ε, Always step I s es ↔ Along step C s es
  | [] => iff_of_true hs trivial
  | e :: es => by
    constructor
    · intro h t ht
      have hIt : I t := (h.2 t ht).start
      exact ⟨(hI hj hs ht).1 hIt, (always_iff_along_of_inv hJ hI (hJ hj ht) hIt es).1 (h.2 t ht)⟩
    · refine fun h => ⟨hs, ?_⟩
      intro t ht
      have hIt : I t := (hI hj hs ht).2 (h t ht).1
      exact (always_iff_along_of_inv hJ hI (hJ hj ht) hIt es).2 (h t ht).2

/-- When exactly the steps that meet `C` keep `I`, the states of a run satisfy `I` iff its steps meet `C`. -/
theorem always_iff_along (hI : ∀ {s e t}, I s → step s e = some t → (I t ↔ C s e)) {s : σ} (hs : I s)
    (es : List ε) : Always step I s es ↔ Along step C s es :=
  always_iff_along_of_inv (J := fun _ => True) (fun _ _ => trivial) (fun _ => hI) trivial hs es

end StepSys
