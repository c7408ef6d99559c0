import Mathlib.Algebra.Ring.Int.Defs
import Mathlib.Data.List.Induction
import RoundGame.World.BlockOps

/-!
# Levelling

What experience is for: at the threshold of a grade it is spent for the next grade.

- `LevelUps`: the level-ups that `CheckUpgrade` is written to make, for any thresholds.
- `Conserves`: what a sequence of rewards should do to a new player. The code gets to no level-up, as each `RewardExp`
  raises before; the grade stays 0 and the experience adds up in 64 bits (`after_eq`). So only the demand that the
  calls end without an error is not met, and that by every call (`conserves_iff`).
-/

namespace RoundGame.World

open Lua

/-! ## Level-ups -/

/-- The level-ups from an experience and a grade: `e` and `g` before, `e'` and `g'` after all of them. -/
inductive LevelUps (grade2exp : Val → Option Int) : Int → Int → Int → Int → Prop
  | done {e g : Int} (h : ∀ n ∈ grade2exp (.num g), e < n) : LevelUps grade2exp e g e g
  | up {e g e' g' n : Int} (hn : grade2exp (.num g) = some n) (he : n ≤ e)
      (h : LevelUps grade2exp (e - n) (g + 1) e' g') : LevelUps grade2exp e g e' g'

namespace LevelUps

variable {grade2exp : Val → Option Int} {e g e' g' : Int}

theorem grade_le (h : LevelUps grade2exp e g e' g') : g ≤ g' := by
  induction h with
  | done _ => omega
  | up _ _ _ ih => omega

/-- The grade stays iff the threshold is not reached. -/
theorem same_iff : LevelUps grade2exp e g e' g ↔ e' = e ∧ ∀ n ∈ grade2exp (.num g), e < n := by
  constructor
  · intro h
    cases h with
    | done h => exact ⟨rfl, h⟩
    | up _ _ h => exact absurd h.grade_le (by omega)
  · rintro ⟨rfl, h⟩
    exact done h

end LevelUps

/-! ## Rewards -/

/-- Positive thresholds for the grades from 1 to `top`. -/
structure GradeTable where
  top : Nat
  exp : Int → Int
  pos : ∀ i : Nat, 1 ≤ i → i ≤ top → 0 < exp i

namespace GradeTable

def grade2exp (t : GradeTable) : Val → Option Int
  | .num i => if 1 ≤ i ∧ i ≤ t.top then some (t.exp i) else none
  | _ => none

def daobiao (t : GradeTable) : Daobiao := ⟨fun _ => none, t.grade2exp⟩

/-- What it takes to get from grade 0 to a grade. -/
def crossed (t : GradeTable) (g : Int) : Int :=
  ((List.range g.toNat).map fun i : Nat => (t.grade2exp (.num i)).getD 0).sum

end GradeTable

/-- The arguments of `RewardExp`: a positive amount, and a table for the tip. -/
structure Reward where
  iAdd : Int
  pos : 0 < iAdd
  sReason : String
  tip : List (Key × Val)

namespace Reward

/-- What was rewarded in total. -/
def total (rs : List Reward) : Int := (rs.map iAdd).sum

def code (t : GradeTable) (r : Reward) : LuaM CActiveCtrl PUnit :=
  CActiveCtrl.rewardExp t.daobiao r.iAdd r.sReason (.tbl r.tip)

/-- A new player after some rewards, each a protected call. -/
def after (t : GradeTable) (iPid : Pid) (rs : List Reward) : CActiveCtrl :=
  rs.foldl (fun c r => safeCall (r.code t) c) (CActiveCtrl.new iPid)

/-- The call ends without an error, with the experience below the threshold of a grade that is no lower. -/
def RightCall (t : GradeTable) (c : CActiveCtrl) (r : Reward) : Prop :=
  Completes (r.code t) c ∧ ∃ e g g', c.iGrade = .num g ∧ (safeCall (r.code t) c).iGrade = .num g' ∧
    (safeCall (r.code t) c).iExp = .num e ∧ g ≤ g' ∧ ∀ n ∈ t.grade2exp (.num g'), e < n

/-- What a sequence of rewards should do to a new player. -/
structure Conserves (t : GradeTable) (iPid : Pid) (rs : List Reward) : Prop where
  calls : ∀ pre r post, rs = pre ++ r :: post → RightCall t (after t iPid pre) r
  /-- What was rewarded was spent for the grades, or is left. -/
  total : ∃ e g, (after t iPid rs).iExp = .num e ∧ (after t iPid rs).iGrade = .num g ∧
    Reward.total rs = t.crossed g + e
  /-- Other rewards with the same total lead to the same. -/
  split : ∀ rs', Reward.total rs' = Reward.total rs →
    (after t iPid rs').iExp = (after t iPid rs).iExp ∧ (after t iPid rs').iGrade = (after t iPid rs).iGrade

variable (t : GradeTable) (iPid : Pid)

/-- The rewards add up, and the grade stays. -/
theorem after_eq (rs : List Reward) :
    after t iPid rs = { CActiveCtrl.new iPid with iExp := .num (wrap (total rs)) } := by
  induction rs using List.reverseRecOn with
  | nil => rfl
  | append_singleton rs r ih =>
    have hstep : after t iPid (rs ++ [r]) = safeCall (r.code t) (after t iPid rs) := by
      simp [after]
    have htotal : total (rs ++ [r]) = total rs + r.iAdd := by simp [total]
    rw [hstep, ih, htotal, ← wrap_wrap_add]
    exact CActiveCtrl.rewardExp_eq t.daobiao r.sReason (.tbl r.tip) r.pos rfl

/-- A new player is levelled right iff it is never rewarded. -/
theorem conserves_iff (rs : List Reward) : Conserves t iPid rs ↔ rs = [] := by
  constructor
  · intro h
    cases rs with
    | nil => rfl
    | cons r rs =>
      have hcall := (h.calls [] r rs rfl).1
      exact absurd hcall (CActiveCtrl.rewardExp_raises t.daobiao r.sReason (.tbl r.tip) r.iAdd)
  · rintro rfl
    refine ⟨?_, ?_, ?_⟩
    · intro pre r post h
      simp at h
    · exact ⟨0, 0, rfl, rfl, rfl⟩
    · intro rs' h
      rw [after_eq, h]
      exact ⟨rfl, rfl⟩

/-- The thresholds of `daobiao/gamedata/data.lua`. -/
def grades : GradeTable where
  top := 5
  exp i := (gamedata.grade2exp (.num i)).getD 1
  pos
    | 0, h, _ => by omega
    | 1, _, _ => by decide
    | 2, _, _ => by decide
    | 3, _, _ => by decide
    | 4, _, _ => by decide
    | 5, _, _ => by decide
    | n + 6, _, h => by omega

/-- The first reward of a new player raises. -/
theorem not_conserves : ¬ Conserves grades 1 [⟨50, by decide, "gm", []⟩] := by
  intro h
  exact CActiveCtrl.rewardExp_raises _ _ _ _ (h.calls [] _ [] rfl).1

end Reward

end RoundGame.World
