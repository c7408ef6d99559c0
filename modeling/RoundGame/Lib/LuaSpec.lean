import RoundGame.Lib.Lua

/-!
# Pre- and postconditions of code that may raise

`Spec P x Q E`: run on an object that satisfies `P`, the code `x` returns a result and leaves an object that satisfy
`Q`, or raises and leaves an object that satisfies `E`.

- one rule for each construct (`Spec.pure`, `Spec.throw`, `Spec.modify`, `Spec.get_bind`, `Spec.lift_bind`, `Spec.bind`,
  `Spec.forM` and `Spec.forM_foldl` for a loop), and `Spec.conseq`;
- after a `get` the object is known (`Spec.from_state`, `Spec.pure_from`);
- code that keeps a part of the object keeps what depends on that part (`Spec.of_keeps`);
- `LuaM.protect x` is a protected call in the middle of code; either outcome of `x` goes on (`Spec.protect`);
- what holds in both outcomes holds of the object after a protected call (`Spec.safeCall`).
-/

namespace Lua

variable {σ α γ : Type}

/-- `safe_call(...)`: the result of the code, `none` when it raised. -/
def LuaM.protect (x : LuaM σ α) : LuaM σ (Option α) := ExceptT.mk fun s => (.ok (x.exec s).1.toOption, (x.exec s).2)

def Spec (P : σ → Prop) (x : LuaM σ α) (Q : α → σ → Prop) (E : σ → Prop) : Prop :=
  ∀ s, P s → match x.exec s with
    | (.ok a, t) => Q a t
    | (.error _, t) => E t

namespace Spec

variable {P P' : σ → Prop} {x : LuaM σ α} {Q Q' : α → σ → Prop} {E E' : σ → Prop}

theorem pure {a : α} (h : ∀ s, P s → Q a s) : Spec P (Pure.pure a) Q E := h

theorem throw {e : String} (h : ∀ s, P s → E s) : Spec P (MonadExcept.throw e : LuaM σ α) Q E := h

theorem modify {u : σ → σ} {Q : PUnit → σ → Prop} (h : ∀ s, P s → Q ⟨⟩ (u s)) :
    Spec P (modifyThe σ u : LuaM σ PUnit) Q E := h

theorem conseq (h : Spec P x Q E) (hP : ∀ s, P' s → P s) (hQ : ∀ a s, Q a s → Q' a s) (hE : ∀ s, E s → E' s) :
    Spec P' x Q' E' := by
  intro s hs
  have hx := h s (hP s hs)
  revert hx
  cases x.exec s with
  | mk r t =>
    cases r with
    | ok a => exact hQ a t
    | error e => exact hE t

/-- Code that starts with the object `s`. -/
theorem from_state {s : σ} (h : Spec P x Q E) (hs : P s) : Spec (· = s) x Q E :=
  h.conseq (fun _ ht => ht ▸ hs) (fun _ _ => id) fun _ => id

theorem pure_from {a : α} {s : σ} (h : Q a s) : Spec (· = s) (Pure.pure a) Q E := pure fun _ ht => ht ▸ h

/-- What does not depend on the object. -/
theorem of_and {p : Prop} (h : p → Spec P x Q E) : Spec (fun s => p ∧ P s) x Q E := fun s hs => h hs.1 s hs.2

theorem bind {R : γ → σ → Prop} {y : LuaM σ γ} {g : γ → LuaM σ α} (hy : Spec P y R E)
    (hg : ∀ c, Spec (R c) (g c) Q E) : Spec P (y >>= g) Q E := by
  intro s hs
  have hy' := hy s hs
  rw [LuaM.exec_bind]
  revert hy'
  cases y.exec s with
  | mk r t =>
    cases r with
    | ok c => exact hg c t
    | error e => exact id

theorem lift_bind {a : γ} {g : γ → LuaM σ α} (h : Spec P (g a) Q E) : Spec P (LuaM.lift (.ok a) >>= g) Q E := h

theorem get_bind {g : σ → LuaM σ α} (h : ∀ s, P s → Spec (· = s) (g s) Q E) : Spec P (get >>= g) Q E :=
  fun s hs => h s hs s rfl

/-- A loop, whose turns the function `g` follows. -/
theorem forM_foldl {β : Type} {R : β → σ → Prop} {f : α → LuaM σ PUnit} {g : β → α → β} {l : List α}
    (h : ∀ b, ∀ a ∈ l, Spec (R b) (f a) (fun _ => R (g b a)) E) (b : β) :
    Spec (R b) (l.forM f) (fun _ => R (l.foldl g b)) E := by
  induction l generalizing b with
  | nil => exact pure fun _ => id
  | cons a l ih =>
    refine bind (h b a List.mem_cons_self) fun _ => ?_
    exact ih (fun b' a' ha' => h b' a' (List.mem_cons_of_mem a ha')) (g b a)

/-- A loop, whose turns keep `P`. -/
theorem forM {f : α → LuaM σ PUnit} {l : List α} (h : ∀ a ∈ l, Spec P (f a) (fun _ => P) E) :
    Spec P (l.forM f) (fun _ => P) E :=
  forM_foldl (R := fun _ => P) (g := fun _ _ => PUnit.unit) (fun _ => h) PUnit.unit

/-- Code that keeps a part of the object keeps what depends on that part only. -/
theorem of_keeps {β : Type} {f : σ → β} (hx : Keeps f x) (hP : ∀ s t, f t = f s → P s → P t) :
    Spec P x (fun _ => P) P := by
  intro s hs
  have h : f (x.exec s).2 = f s := hx s
  revert h
  cases x.exec s with
  | mk r t =>
    intro h
    cases r with
    | ok a => exact hP s t h hs
    | error e => exact hP s t h hs

theorem protect {R : Option α → σ → Prop} (h : Spec P x (fun a => R (some a)) (R none)) :
    Spec P x.protect R E := by
  intro s hs
  have hx := h s hs
  show R (x.exec s).1.toOption (x.exec s).2
  revert hx
  cases x.exec s with
  | mk r t =>
    cases r with
    | ok a => exact id
    | error e => exact id

theorem safeCall (h : Spec P x (fun _ => E) E) {s : σ} (hs : P s) : E (Lua.safeCall x s) := by
  have hx := h s hs
  unfold Lua.safeCall
  revert hx
  cases x.exec s with
  | mk r t =>
    cases r with
    | ok a => exact id
    | error e => exact id

end Spec

end Lua
