import Mathlib.Data.List.Basic
import Mathlib.Data.List.Flatten
import Mathlib.Data.List.Infix
import Mathlib.Tactic.Ring

/-!
# Little-endian numbers and length-prefixed streams

- `le k n` are the `k` low bytes of a number, the lowest first; `ofLe` puts a number together again by shifts
  (`ofLe_le`).
- `frame p` is a payload behind its length, two bytes in big-endian order; `unframe` takes the first complete frame
  off a stream (`unframe_append`, `eq_of_unframe`).
- A stream of frames is cut in one way only: whoever takes complete frames off it until none is left has taken the
  frames that were put there (`frames_inj`), and before that a prefix of them (`frames_prefix`).
-/

namespace Framing

abbrev Bytes := List UInt8

/-! ## Little-endian numbers -/

def le : Nat → Nat → Bytes
  | 0, _ => []
  | k + 1, n => UInt8.ofNat (n % 256) :: le k (n >>> 8)

/-- The bytes of `l`, shifted from position `i` on, joined to `n`. -/
def joinLe : Nat → Nat → Bytes → Nat
  | n, _, [] => n
  | n, i, b :: l => joinLe (n ||| b.toNat <<< (8 * i)) (i + 1) l

def ofLe (l : Bytes) : Nat := joinLe 0 0 l

@[simp] theorem length_le (k n : Nat) : (le k n).length = k := by
  induction k generalizing n with
  | zero => rfl
  | succ k ih => simp [le, ih]

theorem toNat_low (n : Nat) : (UInt8.ofNat (n % 256)).toNat = n % 256 := by
  simp

/-- Bytes joined above what is there already add up. -/
theorem joinLe_le {k n m i : Nat} (hm : m < 2 ^ (8 * i)) (hn : n < 256 ^ k) :
    joinLe m i (le k n) = m + n * 2 ^ (8 * i) := by
  induction k generalizing n m i with
  | zero =>
    have hzero : n = 0 := by simpa using hn
    simp [le, joinLe, hzero]
  | succ k ih =>
    have hlow : m ||| (n % 256) <<< (8 * i) = m + n % 256 * 2 ^ (8 * i) := by
      rw [Nat.or_comm, ← Nat.shiftLeft_add_eq_or_of_lt hm, Nat.shiftLeft_eq, Nat.add_comm]
    have hshift : n >>> 8 = n / 256 := Nat.shiftRight_eq_div_pow n 8
    have hhigh : n >>> 8 < 256 ^ k := by
      rw [hshift]
      apply Nat.div_lt_of_lt_mul
      rw [Nat.pow_succ, Nat.mul_comm] at hn
      exact hn
    have hpow : 2 ^ (8 * (i + 1)) = 256 * 2 ^ (8 * i) := by
      rw [show 8 * (i + 1) = 8 * i + 8 by omega, Nat.pow_add, Nat.mul_comm]
    have hlt : m + n % 256 * 2 ^ (8 * i) < 2 ^ (8 * (i + 1)) := by
      have hbyte : n % 256 * 2 ^ (8 * i) ≤ 255 * 2 ^ (8 * i) := Nat.mul_le_mul_right _ (by omega)
      omega
    simp only [le, joinLe, toNat_low]
    rw [hlow, ih hlt hhigh, hpow, hshift]
    calc m + n % 256 * 2 ^ (8 * i) + n / 256 * (256 * 2 ^ (8 * i))
        = m + (n % 256 + 256 * (n / 256)) * 2 ^ (8 * i) := by ring
      _ = m + n * 2 ^ (8 * i) := by rw [Nat.mod_add_div]

theorem ofLe_le {k n : Nat} (h : n < 256 ^ k) : ofLe (le k n) = n := by
  have hjoin := joinLe_le (m := 0) (i := 0) (by decide) h
  simpa [ofLe] using hjoin

/-! ## Frames -/

def be16 (n : Nat) : Bytes := [UInt8.ofNat (n / 256), UInt8.ofNat (n % 256)]

def frame (p : Bytes) : Bytes := be16 p.length ++ p

/-- The first complete frame of a stream, and what follows it. -/
def unframe : Bytes → Option (Bytes × Bytes)
  | a :: b :: l =>
    let s := a.toNat * 256 + b.toNat
    if l.length < s then none else some (l.take s, l.drop s)
  | _ => none

def frames (ps : List Bytes) : Bytes := ps.flatMap frame

@[simp] theorem frames_nil : frames [] = [] := rfl

@[simp] theorem frames_cons (p : Bytes) (ps : List Bytes) : frames (p :: ps) = frame p ++ frames ps := by
  simp [frames]

@[simp] theorem frames_append (ps qs : List Bytes) : frames (ps ++ qs) = frames ps ++ frames qs := by
  simp [frames]

/-- Two bytes are those of the number that they make. -/
theorem be16_join (a b : UInt8) : be16 (a.toNat * 256 + b.toNat) = [a, b] := by
  have ha := a.toNat_lt
  have hb := b.toNat_lt
  have hdiv : (a.toNat * 256 + b.toNat) / 256 = a.toNat := by omega
  have hmod : (a.toNat * 256 + b.toNat) % 256 = b.toNat := by omega
  unfold be16
  rw [hdiv, hmod, UInt8.ofNat_toNat, UInt8.ofNat_toNat]

/-- Behind a length, there is a frame when there are as many bytes. -/
theorem unframe_be16 {n : Nat} (h : n < 65536) (l : Bytes) :
    unframe (be16 n ++ l) = if l.length < n then none else some (l.take n, l.drop n) := by
  have hlen : (UInt8.ofNat (n / 256)).toNat * 256 + (UInt8.ofNat (n % 256)).toNat = n := by
    rw [toNat_low, UInt8.toNat_ofNat', Nat.mod_eq_of_lt (by omega)]
    omega
  show unframe (UInt8.ofNat (n / 256) :: UInt8.ofNat (n % 256) :: l) = _
  simp only [unframe, hlen]

theorem unframe_append {p : Bytes} (h : p.length < 65536) (rest : Bytes) :
    unframe (frame p ++ rest) = some (p, rest) := by
  unfold frame
  rw [List.append_assoc, unframe_be16 h, if_neg (by simp), List.take_left, List.drop_left]

theorem eq_of_unframe {l p rest : Bytes} (h : unframe l = some (p, rest)) :
    l = frame p ++ rest ∧ p.length < 65536 := by
  match l, h with
  | a :: b :: l, h =>
    simp only [unframe] at h
    split at h
    · cases h
    · rename_i hle
      obtain ⟨rfl, rfl⟩ := Prod.mk.inj (Option.some.inj h)
      have ha := a.toNat_lt
      have hb := b.toNat_lt
      have hlen : (l.take (a.toNat * 256 + b.toNat)).length = a.toNat * 256 + b.toNat := by
        rw [List.length_take]
        omega
      refine ⟨?_, by rw [hlen]; omega⟩
      unfold frame
      rw [hlen, be16_join]
      simp

theorem unframe_short {l : Bytes} (h : l.length < 2) : unframe l = none := by
  match l, h with
  | [], _ => rfl
  | [_], _ => rfl

theorem length_of_unframe {l : Bytes} (h : unframe l = none) : l.length ≤ 65536 := by
  match l, h with
  | [], _ => simp
  | [_], _ => simp
  | a :: b :: l, h =>
    have ha := a.toNat_lt
    have hb := b.toNat_lt
    simp only [unframe] at h
    split at h
    · rename_i hlt
      simp only [List.length_cons]
      omega
    · cases h

/-- Frames that begin a stream of frames are the first of it. -/
theorem frames_prefix {ps qs : List Bytes} {t : Bytes} (hp : ∀ p ∈ ps, p.length < 65536)
    (hq : ∀ q ∈ qs, q.length < 65536) (h : frames qs = frames ps ++ t) :
    ∃ rs, qs = ps ++ rs ∧ t = frames rs := by
  induction ps generalizing qs with
  | nil => exact ⟨qs, rfl, h.symm⟩
  | cons p ps ih =>
    have hp' := hp p List.mem_cons_self
    cases qs with
    | nil => simp [frame, be16] at h
    | cons q qs =>
      rw [frames_cons, frames_cons, List.append_assoc] at h
      have hun : some (q, frames qs) = some (p, frames ps ++ t) := by
        rw [← unframe_append (hq q List.mem_cons_self), ← unframe_append hp', h]
      obtain ⟨rfl, heq⟩ := Prod.mk.inj (Option.some.inj hun)
      obtain ⟨rs, rfl, ht⟩ := ih (fun x hx => hp x (List.mem_cons_of_mem _ hx))
        (fun x hx => hq x (List.mem_cons_of_mem _ hx)) heq
      exact ⟨rs, rfl, ht⟩

/-- Frames taken off a stream of frames until no complete one is left are all of them. -/
theorem frames_inj {ps qs : List Bytes} {rest : Bytes} (hp : ∀ p ∈ ps, p.length < 65536)
    (hq : ∀ q ∈ qs, q.length < 65536) (h : frames qs = frames ps ++ rest) (hrest : unframe rest = none) :
    ps = qs ∧ rest = [] := by
  obtain ⟨rs, rfl, rfl⟩ := frames_prefix hp hq h
  cases rs with
  | nil => simp
  | cons r rs =>
    have hr : r.length < 65536 := hq r (by simp)
    rw [frames_cons, unframe_append hr] at hrest
    cases hrest

/-- Frames taken off the first part of a stream, until no complete one is left in it, are the first of the frames, and
all of them when nothing is to come. -/
theorem frames_first {ps qs : List Bytes} {t rest : Bytes} (hp : ∀ p ∈ ps, p.length < 65536)
    (hq : ∀ q ∈ qs, q.length < 65536) (h : frames qs = frames ps ++ t ++ rest) (ht : unframe t = none) :
    ∃ rs, qs = ps ++ rs ∧ (rest = [] → rs = []) := by
  rw [List.append_assoc] at h
  obtain ⟨rs, rfl, hrs⟩ := frames_prefix hp hq h
  refine ⟨rs, rfl, ?_⟩
  rintro rfl
  rw [List.append_nil] at hrs h
  have hall := frames_inj hp hq h ht
  simpa using hall.1

end Framing
