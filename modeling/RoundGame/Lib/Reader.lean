import Mathlib.Data.List.Basic
import Mathlib.Data.List.Infix

/-!
# Readers of a stream

A `Reader` takes entries from the front of a list, and gives what it read with what is left of the list, or an error.

- `Local r`: what `r` reads depends only on what it takes. Readers put together from local ones are local
  (`Local.bind`).
- `Eats r`: whenever `r` reads something it takes an entry (`Eats.bind`).
- `Agree n r r'`: the readers do the same on streams of at most `n` entries.
- `readAll r`: a reader with a state, used until nothing is left. From a stream that ends too early it reads the first
  things that are in the whole stream, and nothing else: the others are read from the state that it leaves
  (`readAll_append`).
-/

abbrev Reader (ε β α : Type) := StateT (List β) (Except ε) α

namespace Reader

variable {ε β α γ σ : Type} {r : Reader ε β α} {f : α → Reader ε β γ}

theorem run_bind_ok {l rest : List β} {c : γ} :
    (r >>= f).run l = .ok (c, rest) ↔ ∃ a mid, r.run l = .ok (a, mid) ∧ (f a).run mid = .ok (c, rest) := by
  rw [StateT.run_bind]
  cases h : r.run l with
  | error e =>
    refine iff_of_false (fun hno => by cases hno) ?_
    rintro ⟨a, mid, hno, -⟩
    cases hno
  | ok p =>
    obtain ⟨a, mid⟩ := p
    constructor
    · intro hf
      exact ⟨a, mid, rfl, hf⟩
    · rintro ⟨a', mid', heq, hf⟩
      cases heq
      exact hf

theorem run_pure_ok {a b : α} {l rest : List β} :
    (pure a : Reader ε β α).run l = .ok (b, rest) ↔ a = b ∧ l = rest := by
  rw [StateT.run_pure]
  constructor
  · intro h
    cases h
    exact ⟨rfl, rfl⟩
  · rintro ⟨rfl, rfl⟩
    rfl

/-! ## What is read depends on what is taken -/

def Local (r : Reader ε β α) : Prop :=
  ∀ ⦃l a rest⦄, r.run l = .ok (a, rest) →
    ∃ used, l = used ++ rest ∧ ∀ rest', r.run (used ++ rest') = .ok (a, rest')

namespace Local

theorem pure (a : α) : Local (Pure.pure a : Reader ε β α) := by
  intro l b rest h
  obtain ⟨rfl, rfl⟩ := run_pure_ok.1 h
  exact ⟨[], rfl, fun _ => rfl⟩

/-- A reader that never succeeds. -/
theorem of_error {g : List β → ε} (h : ∀ l, r.run l = .error (g l)) : Local r := by
  intro l a rest hok
  rw [h] at hok
  cases hok

theorem bind (hr : Local r) (hf : ∀ a, Local (f a)) : Local (r >>= f) := by
  intro l c rest h
  obtain ⟨a, mid, hread, hrest⟩ := run_bind_ok.1 h
  obtain ⟨used, rfl, hused⟩ := hr hread
  obtain ⟨more, rfl, hmore⟩ := hf a hrest
  refine ⟨used ++ more, (List.append_assoc used more rest).symm, fun rest' => ?_⟩
  rw [List.append_assoc]
  exact run_bind_ok.2 ⟨a, more ++ rest', hused _, hmore rest'⟩

theorem length_le (hr : Local r) {l rest : List β} {a : α} (h : r.run l = .ok (a, rest)) : rest.length ≤ l.length := by
  obtain ⟨used, rfl, -⟩ := hr h
  simp

/-- More behind the stream is left there. -/
theorem append (hr : Local r) {l rest : List β} {a : α} (h : r.run l = .ok (a, rest)) (more : List β) :
    r.run (l ++ more) = .ok (a, rest ++ more) := by
  obtain ⟨used, rfl, hused⟩ := hr h
  rw [List.append_assoc]
  exact hused _

end Local

/-! ## Something is taken -/

def Eats (r : Reader ε β α) : Prop := ∀ ⦃l a rest⦄, r.run l = .ok (a, rest) → rest.length < l.length

theorem Eats.bind (hr : Eats r) (hf : ∀ a, Local (f a)) : Eats (r >>= f) := by
  intro l c rest h
  obtain ⟨a, mid, hread, hrest⟩ := run_bind_ok.1 h
  exact Nat.lt_of_le_of_lt ((hf a).length_le hrest) (hr hread)

/-! ## Readers that agree on short streams -/

def Agree (n : Nat) (r r' : Reader ε β α) : Prop := ∀ l : List β, l.length ≤ n → r.run l = r'.run l

namespace Agree

variable {n m : Nat} {r' : Reader ε β α} {f' : α → Reader ε β γ}

theorem refl (n : Nat) (r : Reader ε β α) : Agree n r r := fun _ _ => rfl

theorem mono (h : Agree n r r') (hm : m ≤ n) : Agree m r r' := fun l hl => h l (Nat.le_trans hl hm)

theorem bind (hr : Agree n r r') (hlocal : Local r) (hf : ∀ a, Agree n (f a) (f' a)) :
    Agree n (r >>= f) (r' >>= f') := by
  intro l hl
  rw [StateT.run_bind, StateT.run_bind, ← hr l hl]
  cases hread : r.run l with
  | error e => rfl
  | ok p => exact hf p.1 p.2 (Nat.le_trans (hlocal.length_le hread) hl)

/-- What comes after something was taken has to agree on shorter streams only. -/
theorem bind_eats (hr : Agree (n + 1) r r') (heats : Eats r) (hf : ∀ a, Agree n (f a) (f' a)) :
    Agree (n + 1) (r >>= f) (r' >>= f') := by
  intro l hl
  rw [StateT.run_bind, StateT.run_bind, ← hr l hl]
  cases hread : r.run l with
  | error e => rfl
  | ok p =>
    have hlt := heats hread
    exact hf p.1 p.2 (by omega)

end Agree

/-! ## Until nothing is left -/

/-- `n` bounds how often the reader is used. -/
def readAll (r : σ → Reader ε β (α × σ)) : Nat → σ → List β → Except ε (List α × σ)
  | n + 1, s, b :: l => do
    let ((a, s), rest) ← (r s).run (b :: l)
    let (as, s) ← readAll r n s rest
    return (a :: as, s)
  | _, s, _ => .ok ([], s)

section ReadAll

variable {r : σ → Reader ε β (α × σ)} {n m : Nat} {s s' s'' : σ} {l l' : List β} {as as' : List α}

@[simp] theorem readAll_nil (n : Nat) (s : σ) : readAll r n s [] = .ok ([], s) := by
  cases n <;> rfl

theorem readAll_step {a : α} {rest : List β} (hl : l ≠ []) (h : (r s).run l = .ok ((a, s'), rest)) :
    readAll r (n + 1) s l = (readAll r n s' rest).map fun p => (a :: p.1, p.2) := by
  obtain ⟨b, t, rfl⟩ := List.exists_cons_of_ne_nil hl
  rw [readAll, h]
  simp only [bind, Except.bind]
  cases readAll r n s' rest <;> rfl

theorem readAll_cons_ok {b : β} (h : readAll r (n + 1) s (b :: l) = .ok (as, s'')) :
    ∃ a s' rest as', (r s).run (b :: l) = .ok ((a, s'), rest) ∧ readAll r n s' rest = .ok (as', s'') ∧
      as = a :: as' := by
  cases hread : (r s).run (b :: l) with
  | error e =>
    rw [readAll, hread] at h
    cases h
  | ok p =>
    obtain ⟨⟨a, s'⟩, rest⟩ := p
    rw [readAll_step (List.cons_ne_nil b l) hread] at h
    cases hrest : readAll r n s' rest with
    | error e =>
      rw [hrest] at h
      cases h
    | ok q =>
      rw [hrest] at h
      cases h
      exact ⟨a, s', rest, q.1, rfl, hrest, rfl⟩

theorem readAll_agree {r' : σ → Reader ε β (α × σ)} (hagree : ∀ s, Agree m (r s) (r' s)) (hlocal : ∀ s, Local (r s))
    (hm : l.length ≤ m) : readAll r n s l = readAll r' n s l := by
  induction n generalizing s l with
  | zero => cases l <;> rfl
  | succ n ih =>
    cases l with
    | nil => rfl
    | cons b l =>
      have hsame := hagree s (b :: l) hm
      cases hread : (r s).run (b :: l) with
      | error e =>
        rw [readAll, readAll, ← hsame, hread]
        rfl
      | ok p =>
        obtain ⟨⟨a, s'⟩, rest⟩ := p
        have hle := (hlocal s).length_le hread
        rw [readAll_step (List.cons_ne_nil b l) hread,
          readAll_step (List.cons_ne_nil b l) (hsame.symm.trans hread), ih (Nat.le_trans hle hm)]

/-- What is read from the beginning of a stream comes first in what is read from the stream, and the rest is read from
the state after that. -/
theorem readAll_append (hlocal : ∀ s, Local (r s)) (heats : ∀ s, Eats (r s)) (hn : l.length ≤ n)
    (hm : (l ++ l').length ≤ m) (h : readAll r n s l = .ok (as, s'))
    (h' : readAll r m s (l ++ l') = .ok (as', s'')) : ∃ bs k, as' = as ++ bs ∧ readAll r k s' l' = .ok (bs, s'') := by
  induction n generalizing s l as m as' with
  | zero =>
    obtain rfl := List.length_eq_zero_iff.1 (Nat.le_zero.1 hn)
    cases h
    exact ⟨as', m, rfl, h'⟩
  | succ n ih =>
    cases l with
    | nil =>
      cases h
      exact ⟨as', m, rfl, h'⟩
    | cons b l =>
      cases m with
      | zero => simp at hm
      | succ m =>
        obtain ⟨a, s1, rest, bs, hread, hrest, rfl⟩ := readAll_cons_ok h
        have hlong := (hlocal s).append hread l'
        have hlt := heats s hread
        rw [readAll_step (by simp) hlong] at h'
        cases hrest' : readAll r m s1 (rest ++ l') with
        | error e =>
          rw [hrest'] at h'
          cases h'
        | ok q =>
          rw [hrest'] at h'
          cases h'
          simp only [List.length_append, List.length_cons] at hn hm hlt
          obtain ⟨cs, k, heq, hk⟩ := ih (by omega) (by simp only [List.length_append]; omega) hrest hrest'
          exact ⟨cs, k, by rw [heq, List.cons_append], hk⟩

/-- What each use of the reader does to the state, all of them do. -/
theorem readAll_rel {R : σ → σ → Prop} (hrefl : ∀ s, R s s) (htrans : ∀ {s t u}, R s t → R t u → R s u)
    (hstep : ∀ {s l a s' rest}, (r s).run l = .ok ((a, s'), rest) → R s s') (h : readAll r n s l = .ok (as, s')) :
    R s s' := by
  induction n generalizing s l as with
  | zero =>
    cases l <;> cases h <;> exact hrefl _
  | succ n ih =>
    cases l with
    | nil =>
      cases h
      exact hrefl _
    | cons b l =>
      obtain ⟨a, s1, rest, bs, hread, hrest, -⟩ := readAll_cons_ok h
      exact htrans (hstep hread) (ih hrest)

end ReadAll

end Reader
