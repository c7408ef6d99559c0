import RoundGame.World.Levels

/-!
# Using an experience item

`Use` of an item of the class `i10001` should be all or nothing: it takes the cost from the amount and gives the
experience for it, with the level-ups that are due, or it changes nothing (`AllOrNothing`).

- `stockAfter`: what `Use` leaves of the amount, the experience and the grade (`holds_use`). `AddAmount` keeps the
  amount between 0 and the maximum, and `RewardExp` raises after the experience is added, before any level-up. The sums
  wrap around at 64 bits.
- `use_iff`: so it is all or nothing iff it takes and gives what it should in 64 bits and without a level-up.
-/

namespace RoundGame.World

open Function Lua

/-- An amount of an item, and the experience and the grade of its owner. -/
structure Stock where
  amount : Int
  exp : Int
  grade : Int
  deriving DecidableEq

/-- A player with the experience item `o` at a position of its bag. -/
structure Holds (p : CPlayer) (iPos : Int) (o : CItem) (s : Stock) : Prop where
  integers : IsInteger s.amount ∧ IsInteger s.exp
  item : p.oItemCtrl.mItemList iPos = some o
  sid : o.iSid = .num 10001
  amount : o.iAmount = .num s.amount
  exp : p.oActiveCtrl.iExp = .num s.exp
  grade : p.oActiveCtrl.iGrade = .num s.grade

/-- What `Use` of an item with the cost `iCost` should leave of `s`. -/
def AllOrNothing (grade2exp : Val → Option Int) (iCost iPos : Int) (s : Stock) (p : CPlayer) : Prop :=
  (∃ o, Holds p iPos o s) ∨
    ∃ o e g, LevelUps grade2exp (s.exp + 1000 * iCost) s.grade e g ∧ Holds p iPos o ⟨s.amount - iCost, e, g⟩

/-- There is less than the cost; or the cost can be taken, the sums fit into 64 bits and the experience is below the
next threshold; or there is no cost, and nothing to change. -/
def NoLevelUp (grade2exp : Val → Option Int) (iCost iMax : Int) (s : Stock) : Prop :=
  s.amount < iCost ∨
    (0 < wrap (1000 * iCost) ∧ IsInteger (s.amount - iCost) ∧ IsInteger (s.exp + 1000 * iCost) ∧
      (s.amount - iCost ≤ iMax ∨ s.amount = iCost) ∧ ∀ n ∈ grade2exp (.num s.grade), s.exp + 1000 * iCost < n) ∨
    (iCost ≤ 0 ∧ wrap (1000 * iCost) ≤ 0 ∧ s.amount = max 0 (min (wrap (s.amount - iCost)) iMax))

/-- What `Use` leaves of `s`. -/
def stockAfter (iCost iMax : Int) (s : Stock) : Stock :=
  if s.amount < iCost then s
  else
    { s with
      amount := max 0 (min (wrap (s.amount - iCost)) iMax)
      exp := if 0 < wrap (1000 * iCost) then wrap (s.exp + 1000 * iCost) else s.exp }

theorem Holds.unique {p : CPlayer} {iPos : Int} {o o' : CItem} {s s' : Stock} (h : Holds p iPos o s)
    (h' : Holds p iPos o' s') : s = s' := by
  have ho : o = o' := Option.some.inj (h.item.symm.trans h'.item)
  subst ho
  have hamount := h.amount.symm.trans h'.amount
  have hexp := h.exp.symm.trans h'.exp
  have hgrade := h.grade.symm.trans h'.grade
  obtain ⟨amount, exp, grade⟩ := s
  cases hamount
  cases hexp
  cases hgrade
  rfl

/-! ## What `Use` does -/

section Use

variable {d : Daobiao} {mConfig : ItemConfig} {o : CItem} {iAmount : Int}

theorem CItem.addAmount_eq (hconfig : d.item o.iSid = some mConfig) (hamount : o.iAmount = .num iAmount)
    (iAdd : Int) : (addAmount d iAdd).exec o = (.ok ⟨⟩,
      { o with
        iAmount := .num (max 0 (min (wrap (iAmount + iAdd)) (mConfig.maxAmount.getD 99).toInt)), bDirty := true }) := by
  have hmax : getMaxAmount d { o with bDirty := true } = .ok (mConfig.maxAmount.getD 99).toInt := by
    simp only [getMaxAmount, getConfig, hconfig, Except.map]
  exact exec_addAmount hmax (congrArg Val.toNumber hamount) iAdd

theorem CItem.validUse_eq (hconfig : d.item o.iSid = some mConfig) (hamount : o.iAmount = .num iAmount) :
    o.validUse d = .ok !decide (iAmount < (mConfig.costAmount.getD 1).toInt) := by
  simp only [validUse, getCostAmount, getConfig, hconfig, hamount, Except.map]
  rfl

variable {p : CPlayer} {iPos : Int} {s : Stock} (bOnline : Bool)

/-- `AddAmount` leaves the experience and the grade. -/
theorem holds_addAmount (h : Holds p iPos o s) (hconfig : d.item o.iSid = some mConfig) (iAdd : Int) :
    ∃ o', Holds (safeCall (CPlayer.onItem iPos o (CItem.addAmount d iAdd)) p) iPos o'
      { s with amount := max 0 (min (wrap (s.amount + iAdd)) (mConfig.maxAmount.getD 99).toInt) } := by
  have hitem := congrArg Prod.snd (CItem.addAmount_eq hconfig h.amount iAdd)
  have hamount : IsInteger (max 0 (min (wrap (s.amount + iAdd)) (mConfig.maxAmount.getD 99).toInt)) := by
    have hwrap := isInteger_wrap (s.amount + iAdd)
    have hmax := isInteger_toInt (mConfig.maxAmount.getD 99)
    unfold IsInteger at hwrap hmax ⊢
    omega
  refine ⟨((CItem.addAmount d iAdd).exec o).2, ⟨hamount, h.integers.2⟩, ?_, ?_, ?_, h.exp, h.grade⟩
  · exact update_self iPos _ p.oItemCtrl.mItemList
  · rw [hitem]
    exact h.sid
  · rw [hitem]

/-- `RewardExp` leaves the item and the grade. -/
theorem holds_reward (h : Holds p iPos o s) (iAdd : Int) (sReason : String) (mArgs : Val) :
    Holds (safeCall (CPlayer.onActive (CActiveCtrl.rewardExpOf bOnline d iAdd sReason mArgs)) p) iPos o
      { s with exp := if 0 < iAdd then wrap (s.exp + iAdd) else s.exp } := by
  have hexp : p.oActiveCtrl.iExp.toNumber = .ok s.exp := by rw [h.exp]; rfl
  by_cases hpos : 0 < iAdd
  · obtain ⟨err, hreward⟩ := CActiveCtrl.rewardExpOf_eq bOnline d sReason mArgs hpos hexp
    have hactive := congrArg Prod.snd hreward
    rw [if_pos hpos]
    exact ⟨⟨h.integers.1, isInteger_wrap _⟩, h.item, h.sid, h.amount, congrArg CActiveCtrl.iExp hactive,
      (congrArg CActiveCtrl.iGrade hactive).trans h.grade⟩
  · obtain ⟨err, hreward⟩ := CActiveCtrl.rewardExpOf_eq_self bOnline d sReason mArgs (c := p.oActiveCtrl)
      fun hrewards => hpos hrewards.1
    have hactive := congrArg Prod.snd hreward
    rw [if_neg hpos]
    exact ⟨h.integers, h.item, h.sid, h.amount, (congrArg CActiveCtrl.iExp hactive).trans h.exp,
      (congrArg CActiveCtrl.iGrade hactive).trans h.grade⟩

theorem holds_use (h : Holds p iPos o s) (hconfig : d.item (.num 10001) = some mConfig) :
    ∃ o', Holds (safeCall (CPlayer.useOf bOnline d iPos o) p) iPos o'
      (stockAfter (mConfig.costAmount.getD 1).toInt (mConfig.maxAmount.getD 99).toInt s) := by
  have hconf : d.item o.iSid = some mConfig := by rw [h.sid, hconfig]
  have hvalid := CItem.validUse_eq hconf h.amount
  have hcost : o.getCostAmount d = .ok (mConfig.costAmount.getD 1).toInt := by
    simp only [CItem.getCostAmount, CItem.getConfig, hconf, Except.map]
  generalize (mConfig.costAmount.getD 1).toInt = iCost at hvalid hcost ⊢
  unfold stockAfter
  by_cases hless : s.amount < iCost
  · rw [if_pos hless]
    have hunused : ∀ i, ¬ o.Uses d i := by
      rintro i ⟨-, -, hv⟩
      rw [hvalid, decide_eq_true hless] at hv
      cases hv
    rw [CPlayer.useOf_eq_self bOnline hunused]
    exact ⟨o, h⟩
  · rw [if_neg hless]
    have huses : o.Uses d iCost := ⟨h.sid, hcost, by rw [hvalid, decide_eq_false hless]; rfl⟩
    obtain ⟨sLogName, huse⟩ := CPlayer.useOf_eq bOnline huses iPos p
    obtain ⟨o', hadd⟩ := holds_addAmount h hconf (wrap (-iCost))
    have hreward := holds_reward (d := d) bOnline hadd (wrap (iCost * 1000)) sLogName .nil
    rw [wrap_add_wrap, ← Int.sub_eq_add_neg] at hreward
    simp only [wrap_add_wrap, Int.mul_comm iCost] at huse hreward
    refine ⟨o', ?_⟩
    unfold safeCall
    rw [huse]
    exact hreward

end Use

/-! ## All or nothing -/

section Stock

variable {iCost iMax : Int} {s : Stock} (hamount : IsInteger s.amount) (hexp : IsInteger s.exp)
  (hcost : IsInteger iCost) (h : iCost ≤ s.amount)

/-- A positive gain changes the experience. -/
theorem exp_ne (hpos : 0 < wrap (1000 * iCost)) : wrap (s.exp + 1000 * iCost) ≠ s.exp := by
  rw [← wrap_add_wrap]
  exact wrap_add_ne (isInteger_wrap _) hpos

include hamount h in
/-- A positive cost that can be taken leaves a smaller amount. -/
theorem amount_ne (hpos : 0 < iCost) : max 0 (min (wrap (s.amount - iCost)) iMax) ≠ s.amount := by
  have hin : IsInteger (s.amount - iCost) := by
    unfold IsInteger at *
    omega
  rw [wrap_eq_self_iff.2 hin]
  omega

include hamount h in
/-- Nothing changes iff no experience is added, and the amount is what taking the cost leaves. -/
theorem stockAfter_eq_iff : stockAfter iCost iMax s = s ↔
    iCost ≤ 0 ∧ wrap (1000 * iCost) ≤ 0 ∧ s.amount = max 0 (min (wrap (s.amount - iCost)) iMax) := by
  have hafter : stockAfter iCost iMax s = s ↔ max 0 (min (wrap (s.amount - iCost)) iMax) = s.amount ∧
      (if 0 < wrap (1000 * iCost) then wrap (s.exp + 1000 * iCost) else s.exp) = s.exp := by
    unfold stockAfter
    rw [if_neg (by omega)]
    exact ⟨fun heq => ⟨congrArg Stock.amount heq, congrArg Stock.exp heq⟩, fun heq => by rw [heq.1, heq.2]⟩
  rw [hafter]
  by_cases hpos : 0 < wrap (1000 * iCost)
  · rw [if_pos hpos]
    exact iff_of_false (fun hc => exp_ne hpos hc.2) fun hc => by omega
  · rw [if_neg hpos]
    constructor
    · rintro ⟨ham, -⟩
      exact ⟨Int.not_lt.1 fun hc => amount_ne hamount h hc ham, Int.not_lt.1 hpos, ham.symm⟩
    · rintro ⟨-, -, ham⟩
      exact ⟨ham.symm, rfl⟩

include hamount hcost h in
/-- What is left of the amount is the rest iff this fits into 64 bits, and below the maximum. -/
theorem rest_iff : max 0 (min (wrap (s.amount - iCost)) iMax) = s.amount - iCost ↔
    IsInteger (s.amount - iCost) ∧ (s.amount - iCost ≤ iMax ∨ s.amount = iCost) := by
  by_cases hin : IsInteger (s.amount - iCost)
  · rw [wrap_eq_self_iff.2 hin]
    simp only [hin, true_and]
    omega
  · refine iff_of_false ?_ fun hc => hin hc.1
    obtain ⟨k, hk⟩ := wrap_eq_add (s.amount - iCost)
    have hwrap := isInteger_wrap (s.amount - iCost)
    unfold IsInteger at *
    omega

include hamount hcost h in
/-- The cost is taken, and the experience for it is given. -/
theorem stockAfter_eq_cost_iff : stockAfter iCost iMax s = ⟨s.amount - iCost, s.exp + 1000 * iCost, s.grade⟩ ↔
    (IsInteger (s.amount - iCost) ∧ (s.amount - iCost ≤ iMax ∨ s.amount = iCost)) ∧
      (0 < wrap (1000 * iCost) ∧ IsInteger (s.exp + 1000 * iCost) ∨ iCost = 0) := by
  unfold stockAfter
  rw [if_neg (by omega)]
  simp only [Stock.mk.injEq, and_true]
  rw [rest_iff hamount hcost h]
  refine and_congr_right fun _ => ?_
  by_cases hpos : 0 < wrap (1000 * iCost)
  · rw [if_pos hpos, wrap_eq_self_iff]
    constructor
    · exact fun hin => Or.inl ⟨hpos, hin⟩
    · rintro (hin | rfl)
      · exact hin.2
      · exact absurd hpos (by decide)
  · rw [if_neg hpos]
    constructor
    · exact fun heq => Or.inr (by omega)
    · rintro (hin | rfl)
      · exact absurd hin.1 hpos
      · omega

end Stock

/-- `Use` of an experience item, by an online player or not, is all or nothing iff the sums fit and no level-up is
due. -/
theorem use_iff {d : Daobiao} {mConfig : ItemConfig} {o : CItem} {p : CPlayer} {iPos : Int} {s : Stock} (bOnline : Bool)
    (h : Holds p iPos o s) (hconfig : d.item (.num 10001) = some mConfig) :
    AllOrNothing d.grade2exp (mConfig.costAmount.getD 1).toInt iPos s
        (safeCall (CPlayer.useOf bOnline d iPos o) p) ↔
      NoLevelUp d.grade2exp (mConfig.costAmount.getD 1).toInt (mConfig.maxAmount.getD 99).toInt s := by
  obtain ⟨o', ho'⟩ := holds_use bOnline h hconfig
  have hamount := h.integers.1
  have hcost := isInteger_toInt (mConfig.costAmount.getD 1)
  generalize (mConfig.costAmount.getD 1).toInt = iCost at ho' hcost ⊢
  generalize (mConfig.maxAmount.getD 99).toInt = iMax at ho' ⊢
  generalize safeCall (CPlayer.useOf bOnline d iPos o) p = p' at ho' ⊢
  have hgrade : (stockAfter iCost iMax s).grade = s.grade := by unfold stockAfter; split <;> rfl
  -- the outcomes that are allowed, of the one there is
  have hall : AllOrNothing d.grade2exp iCost iPos s p' ↔ stockAfter iCost iMax s = s ∨
      stockAfter iCost iMax s = ⟨s.amount - iCost, s.exp + 1000 * iCost, s.grade⟩ ∧
        ∀ n ∈ d.grade2exp (.num s.grade), s.exp + 1000 * iCost < n := by
    constructor
    · rintro (⟨o₁, h₁⟩ | ⟨o₁, e, g, hup, h₁⟩)
      · exact Or.inl (ho'.unique h₁)
      · have hafter := ho'.unique h₁
        have hg : g = s.grade := by rw [← hgrade, hafter]
        subst hg
        obtain ⟨rfl, hnone⟩ := LevelUps.same_iff.1 hup
        exact Or.inr ⟨hafter, hnone⟩
    · rintro (h₁ | ⟨h₁, hnone⟩)
      · exact Or.inl ⟨o', h₁ ▸ ho'⟩
      · exact Or.inr ⟨o', _, _, LevelUps.done hnone, h₁ ▸ ho'⟩
  rw [hall]
  unfold NoLevelUp
  by_cases hless : s.amount < iCost
  · exact iff_of_true (Or.inl (if_pos hless)) (Or.inl hless)
  · have hle : iCost ≤ s.amount := by omega
    rw [stockAfter_eq_iff hamount hle, stockAfter_eq_cost_iff hamount hcost hle]
    constructor
    · rintro (h₁ | ⟨⟨⟨hin, hmax⟩, hgain | rfl⟩, hnone⟩)
      · exact Or.inr (Or.inr h₁)
      · exact Or.inr (Or.inl ⟨hgain.1, hin, hgain.2, hmax, hnone⟩)
      · -- without a cost nothing changes
        refine Or.inr (Or.inr ⟨Int.le_refl 0, by decide, ?_⟩)
        rw [wrap_eq_self_iff.2 hin]
        omega
    · rintro (h₁ | ⟨hpos, hin, hexp, hmax, hnone⟩ | h₁)
      · exact absurd h₁ hless
      · exact Or.inr ⟨⟨⟨hin, hmax⟩, Or.inl ⟨hpos, hexp⟩⟩, hnone⟩
      · exact Or.inl h₁

/-- Five experience items. -/
def pills : CItem := ⟨.num 10001, 1, .num 5, .tbl [], false⟩

/-- A player of grade 1 that has the items at position 1. -/
def holder : CPlayer :=
  { CPlayer.new 1 ⟨"a", 0, 3, none⟩ with
    oActiveCtrl := ⟨1, .num 0, .num 1, false⟩
    oItemCtrl := ⟨1, update (fun _ => none) 1 (some pills), false⟩ }

theorem holds_holder : Holds holder 1 pills ⟨5, 0, 1⟩ where
  integers := by decide
  item := rfl
  sid := rfl
  amount := rfl
  exp := rfl
  grade := rfl

theorem use_iff_holder : AllOrNothing gamedata.grade2exp 1 1 ⟨5, 0, 1⟩
      (safeCall (CPlayer.useOf true gamedata 1 pills) holder) ↔ NoLevelUp gamedata.grade2exp 1 99 ⟨5, 0, 1⟩ := by
  have hconfig : gamedata.item (.num 10001) = some ⟨"道具名-经验丹", some 1, some 99⟩ := rfl
  exact use_iff true holds_holder hconfig

/-- 1000 experience points are enough for grade 4; the player stays at grade 1. -/
theorem not_use : ¬ AllOrNothing gamedata.grade2exp 1 1 ⟨5, 0, 1⟩
    (safeCall (CPlayer.useOf true gamedata 1 pills) holder) := by
  obtain ⟨o', ho'⟩ := holds_use true holds_holder (d := gamedata) rfl
  have hafter : stockAfter 1 99 ⟨5, 0, 1⟩ = ⟨4, 1000, 1⟩ := by decide
  rintro (⟨o, h⟩ | ⟨o, e, g, hup, h⟩)
  · have hsame : stockAfter 1 99 ⟨5, 0, 1⟩ = ⟨5, 0, 1⟩ := ho'.unique h
    rw [hafter] at hsame
    cases hsame
  · have hsame : stockAfter 1 99 ⟨5, 0, 1⟩ = ⟨5 - 1, e, g⟩ := ho'.unique h
    rw [hafter] at hsame
    cases hsame
    exact absurd ((LevelUps.same_iff.1 hup).2 100 rfl) (by decide)

end RoundGame.World
