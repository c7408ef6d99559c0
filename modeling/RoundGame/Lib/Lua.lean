import Mathlib.Algebra.Ring.Int.Defs
import Mathlib.Algebra.Ring.Nat

/-!
# Lua values and protected calls

The values a Lua program gets from outside, untyped, and code on an object that may raise.

- `Val`: `nil`, booleans, integers, strings and tables; `index` and `pairs` raise where Lua does.
- `Integer`: the integers of Lua 5.3, with 64 bits; `wrap` is what such arithmetic makes of an integer.
- `LuaM σ α`: code with an object of type `σ`. What was assigned before an error stays assigned, so a protected call
  leaves the object the code got to (`safeCall`).
- `Keeps f x`: whatever happens in `x`, it leaves the part `f` of the object as it was (`Keeps.bind`, `Keeps.forM`).
-/

namespace Lua

/-! ## Integers -/

/-- The integers of Lua 5.3. -/
abbrev Integer := BitVec 64

/-- What is left of an integer in 64 bits. -/
def wrap (i : Int) : Int := i.bmod (2 ^ 64)

/-- The integers that 64 bits hold. -/
def IsInteger (i : Int) : Prop := -2 ^ 63 ≤ i ∧ i < 2 ^ 63

instance (i : Int) : Decidable (IsInteger i) := inferInstanceAs (Decidable (_ ∧ _))

/-- Whole turns of 64 bits are left out. -/
theorem wrap_eq_add (i : Int) : ∃ k, wrap i = i + 2 ^ 64 * k := by
  obtain ⟨k, hk⟩ := Int.dvd_bmod_sub_self (x := i) (m := 2 ^ 64)
  refine ⟨k, ?_⟩
  unfold wrap
  omega

theorem isInteger_wrap (i : Int) : IsInteger (wrap i) := by
  have hlo : -((2 ^ 64 : Nat) / 2 : Int) ≤ i.bmod (2 ^ 64) := Int.le_bmod (by decide)
  have hhi : i.bmod (2 ^ 64) < ((2 ^ 64 : Nat) + 1 : Int) / 2 := Int.bmod_lt (by decide)
  unfold IsInteger wrap
  omega

theorem wrap_eq_self_iff {i : Int} : wrap i = i ↔ IsInteger i := by
  constructor
  · intro h
    exact h ▸ isInteger_wrap i
  · rintro ⟨hlo, hhi⟩
    exact Int.bmod_eq_of_le (by omega) (by omega)

@[simp] theorem wrap_wrap_add (i j : Int) : wrap (wrap i + j) = wrap (i + j) := Int.bmod_add_bmod

@[simp] theorem wrap_add_wrap (i j : Int) : wrap (i + wrap j) = wrap (i + j) := Int.add_bmod_bmod

/-- Adding a positive integer of Lua changes an integer. -/
theorem wrap_add_ne {i j : Int} (hj : IsInteger j) (hpos : 0 < j) : wrap (i + j) ≠ i := by
  intro h
  obtain ⟨k, hk⟩ := wrap_eq_add (i + j)
  unfold IsInteger at hj
  omega

/-- An integer as one of Lua. -/
theorem toInt_intCast (i : Int) : (i : Integer).toInt = wrap i := BitVec.toInt_ofInt i

theorem isInteger_toInt (i : Integer) : IsInteger i.toInt := ⟨BitVec.le_toInt i, BitVec.toInt_lt⟩

theorem toInt_intCast_iff {i : Int} : (i : Integer).toInt = i ↔ IsInteger i := by
  rw [toInt_intCast, wrap_eq_self_iff]

theorem intCast_toInt (i : Integer) : (i.toInt : Integer) = i := BitVec.ofInt_toInt

/-! ## Values -/

inductive Key
  | str (s : String)
  | int (i : Int)
  deriving DecidableEq

/-- A value; a table lists its entries in the order `pairs` visits them. -/
inductive Val
  | nil
  | bool (b : Bool)
  | num (i : Int)
  | str (s : String)
  | tbl (entries : List (Key × Val))

namespace Val

/-- Everything but `nil` and `false` counts as true. -/
def truthy : Val → Bool
  | nil => false
  | bool b => b
  | _ => true

def typeName : Val → String
  | nil => "nil"
  | bool _ => "boolean"
  | num _ => "number"
  | str _ => "string"
  | tbl _ => "table"

/-- `v.field`; a string has no fields but the functions of the string library. -/
def index (v : Val) (field : String) : Except String Val :=
  match v with
  | tbl entries => .ok ((entries.lookup (.str field)).getD nil)
  | str _ => .ok nil
  | v => .error ("attempt to index a " ++ v.typeName ++ " value")

/-- `v[k]` for any key. -/
def get (v : Val) (k : Key) : Except String Val :=
  match v with
  | tbl entries => .ok ((entries.lookup k).getD nil)
  | str _ => .ok nil
  | v => .error ("attempt to index a " ++ v.typeName ++ " value")

/-- The entries of a table after `t[k] = v`. -/
def setEntry (k : Key) (v : Val) : List (Key × Val) → List (Key × Val)
  | [] =>
    match v with
    | nil => []
    | v => [(k, v)]
  | (k', w) :: l =>
    if k = k' then
      match v with
      | nil => setEntry k nil l
      | v => (k, v) :: l
    else (k', w) :: setEntry k v l

/-- `t[k] = v`. -/
def set (t : Val) (k : Key) (v : Val) : Except String Val :=
  match t with
  | tbl entries => .ok (tbl (setEntry k v entries))
  | t => .error ("attempt to index a " ++ t.typeName ++ " value")

/-- The entries that a `for` loop over `pairs(v)` visits. -/
def pairs (v : Val) : Except String (List (Key × Val)) :=
  match v with
  | tbl entries => .ok entries
  | v => .error ("bad argument #1 to 'pairs' (table expected, got " ++ v.typeName ++ ")")

/-- An operand of `..`. -/
def concat (v : Val) : Except String String :=
  match v with
  | str s => .ok s
  | num i => .ok (toString i)
  | v => .error ("attempt to concatenate a " ++ v.typeName ++ " value")

/-- Whether a value can be indexed at all. -/
def Indexable : Val → Prop
  | tbl _ => True
  | str _ => True
  | _ => False

instance : DecidablePred Indexable
  | tbl _ => isTrue trivial
  | str _ => isTrue trivial
  | nil => isFalse id
  | bool _ => isFalse id
  | num _ => isFalse id

/-- The field of an indexable value. -/
def field : Val → String → Val
  | tbl entries, k => (entries.lookup (.str k)).getD nil
  | _, _ => nil

theorem index_of_indexable {v : Val} (h : v.Indexable) (k : String) : v.index k = .ok (v.field k) := by
  cases v with
  | tbl entries => rfl
  | str s => rfl
  | nil => exact h.elim
  | bool b => exact h.elim
  | num i => exact h.elim

theorem index_of_not_indexable {v : Val} (h : ¬ v.Indexable) (k : String) :
    v.index k = .error ("attempt to index a " ++ v.typeName ++ " value") := by
  cases v with
  | tbl entries => exact absurd trivial h
  | str s => exact absurd trivial h
  | nil => rfl
  | bool b => rfl
  | num i => rfl

end Val

def isSpace (c : Char) : Bool := c ∈ [' ', '\t', '\n', '\x0b', '\x0c', '\x0d']

/-- The value of a nonempty list of decimal digits. -/
def digits (l : List Char) : Option Nat :=
  if l ≠ [] ∧ l.all Char.isDigit then some (l.foldl (fun n c => 10 * n + (c.toNat - '0'.toNat)) 0) else none

/-- The number that a decimal numeral stands for. -/
def numeral (s : String) : Option Int :=
  match ((s.toList.dropWhile isSpace).reverse.dropWhile isSpace).reverse with
  | '-' :: l => (digits l).map fun n : Nat => -(n : Int)
  | '+' :: l => (digits l).map fun n : Nat => (n : Int)
  | l => (digits l).map fun n : Nat => (n : Int)

/-- `tonumber` of a key, for decimal integers; a save writes no other numerals. One that is no integer of Lua is a
float, which is left out here. -/
def tonumber : Key → Option Int
  | .int i => some i
  | .str s => (numeral s).filter fun i => decide (IsInteger i)

/-- An operand of an arithmetic operator; a string is converted. -/
def Val.toNumber (v : Val) : Except String Int :=
  match v with
  | .num i => .ok i
  | .str s =>
    match numeral s with
    | some i => .ok i
    | none => .error "attempt to perform arithmetic on a string value"
  | v => .error ("attempt to perform arithmetic on a " ++ v.typeName ++ " value")

/-- `v < i` for a number `i`; nothing is converted. -/
def Val.lt (v : Val) (i : Int) : Except String Bool :=
  match v with
  | .num n => .ok (decide (n < i))
  | v => .error ("attempt to compare " ++ v.typeName ++ " with number")

/-! ## Code that may raise -/

/-- Code on an object: what it assigned before an error stays assigned. -/
abbrev LuaM (σ : Type) := ExceptT String (StateM σ)

variable {σ α γ β : Type}

def LuaM.lift (e : Except String α) : LuaM σ α := ExceptT.mk (pure e)

/-- The result of the code on an object, and the object afterwards. -/
def LuaM.exec (x : LuaM σ α) (s : σ) : Except String α × σ := (ExceptT.run x).run s

/-- Code on a part of an object. -/
def LuaM.within {τ : Type} (part : τ → σ) (put : σ → τ → τ) (x : LuaM σ α) : LuaM τ α :=
  ExceptT.mk fun s => ((x.exec (part s)).1, put (x.exec (part s)).2 s)

/-- The object after a protected call. -/
def safeCall (x : LuaM σ α) (s : σ) : σ := (x.exec s).2

/-- The code ends without an error. -/
def Completes (x : LuaM σ Unit) (s : σ) : Prop := (x.exec s).1 = .ok ()

namespace LuaM

theorem exec_lift (e : Except String α) (s : σ) : (lift e : LuaM σ α).exec s = (e, s) := rfl

theorem exec_get (s : σ) : (get : LuaM σ σ).exec s = (.ok s, s) := rfl

theorem exec_modify (u : σ → σ) (s : σ) : (modify u : LuaM σ Unit).exec s = (.ok (), u s) := rfl

theorem exec_within {τ : Type} (part : τ → σ) (put : σ → τ → τ) (x : LuaM σ α) (t : τ) :
    (x.within part put).exec t = ((x.exec (part t)).1, put (x.exec (part t)).2 t) := rfl

theorem exec_bind (x : LuaM σ α) (g : α → LuaM σ γ) (s : σ) :
    (x >>= g).exec s = match x.exec s with
      | (.ok a, t) => (g a).exec t
      | (.error e, t) => (.error e, t) := by
  have hbind : (x >>= g).exec s = match x.exec s with
      | (r, t) => (ExceptT.bindCont g r).run t := rfl
  rw [hbind]
  cases x.exec s with
  | mk r t => cases r <;> rfl

/-- A loop that changes nothing, and raises at the first `a` with `p a`. -/
theorem exec_forM {f : α → LuaM σ PUnit} {p : α → Bool} {e : String} {s : σ}
    (h : ∀ a, (f a).exec s = (if p a then .error e else .ok ⟨⟩, s)) (l : List α) :
    (l.forM f).exec s = (if l.any p then .error e else .ok ⟨⟩, s) := by
  induction l with
  | nil => rfl
  | cons a l ih =>
    show (f a >>= fun _ => l.forM f).exec s = _
    rw [exec_bind, h, List.any_cons]
    cases p a with
    | true => rfl
    | false => exact ih

/-- A loop that only assigns. -/
theorem exec_forM_modify (u : α → σ → σ) (l : List α) (s : σ) :
    (l.forM fun a => (modify (u a) : LuaM σ PUnit)).exec s = (.ok ⟨⟩, l.foldl (fun s a => u a s) s) := by
  induction l generalizing s with
  | nil => rfl
  | cons a l ih =>
    show (modify (u a) >>= fun _ => l.forM fun a => (modify (u a) : LuaM σ PUnit)).exec s = _
    rw [exec_bind, exec_modify]
    exact ih (u a s)

end LuaM

/-- Whatever happens in the code, it leaves the part `f` of its object as it was. -/
def Keeps (f : σ → β) (x : LuaM σ α) : Prop := ∀ s, f (safeCall x s) = f s

namespace Keeps

variable {f : σ → β}

theorem lift (e : Except String α) : Keeps f (LuaM.lift e) := fun _ => rfl

theorem pure (a : α) : Keeps f (Pure.pure a) := fun _ => rfl

theorem throw (e : String) : Keeps f (MonadExcept.throw e : LuaM σ α) := fun _ => rfl

theorem get : Keeps f (MonadState.get : LuaM σ σ) := fun _ => rfl

theorem modify {u : σ → σ} (h : ∀ s, f (u s) = f s) : Keeps f (modifyThe σ u : LuaM σ PUnit) := h

/-- Code on a part that keeps `g` of it. -/
theorem within {τ δ : Type} {f : τ → β} {g : σ → δ} {part : τ → σ} {put : σ → τ → τ} {x : LuaM σ α} (hx : Keeps g x)
    (h : ∀ t s, g t = g (part s) → f (put t s) = f s) : Keeps f (x.within part put) := fun s => h _ s (hx (part s))

theorem bind {x : LuaM σ α} {g : α → LuaM σ γ} (hx : Keeps f x) (hg : ∀ a, Keeps f (g a)) : Keeps f (x >>= g) := by
  intro s
  have hx' := hx s
  unfold safeCall at hx' ⊢
  rw [LuaM.exec_bind]
  cases hr : x.exec s with
  | mk r t =>
    rw [hr] at hx'
    cases r with
    | ok a => exact (hg a t).trans hx'
    | error e => exact hx'

theorem forM {body : α → LuaM σ PUnit} (h : ∀ a, Keeps f (body a)) : ∀ l : List α, Keeps f (l.forM body)
  | [] => Keeps.pure PUnit.unit
  | a :: l => Keeps.bind (h a) fun _ => forM h l

end Keeps

end Lua
