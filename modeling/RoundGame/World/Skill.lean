import Mathlib.Algebra.Group.Prod
import RoundGame.Base.Formula
import RoundGame.Lib.Lua
import RoundGame.Lib.StepSys
import RoundGame.World.AttrBlock

/-!
# Passive skills

A passive skill adds to the attributes of its player, in the attribute block `m_oSkillAttr`, and keeps a record of what
it added in `m_mApply` and `m_mApplyRatio`. `SkillUnEffect` takes back what the records say, `SkillEffect` takes back
and adds again what the formulas of the skill give for the level.

The formulas are texts that `formula_string` evaluates, which gives for a text what it gave for the first level it was
evaluated for, by any skill of any player (`formulaString_spec`). The records are not cleared when they are taken back,
and the first loop of `SkillEffect` adds to the ratios what it records as applied. So a step is right only when the
records and the kept level happen to fit what the block holds (`effects_iff`).
-/

namespace RoundGame.World

open Lua
open RoundGame.Base (EnvVal Tables Meaning Fm Call callsOf formulaString keptVars newEnv overlay)

/-! ## Formulas of the level -/

/-- Amounts by attribute. -/
abbrev Attrs := Accum.Table String Integer

/-- A number in the variables of a formula, and the table a formula makes. -/
inductive Datum
  | num (i : Integer)
  | attrs (m : Attrs)

/-- The table that each text gives for a level. -/
abbrev Formulas := String → Integer → Attrs

/-- A formula reads the level in its variable `lv`. -/
def Formulas.meaning (formulas : Formulas) : Meaning Datum where
  load msg := some fun _ENV _ =>
    match _ENV "lv" with
    | some (.other (.num lv)) => .ok (.other (.attrs (formulas msg lv)))
    | _ => .error "attempt to perform arithmetic on a nil value (global 'lv')"
  loop _ _ _ := .error "bad argument #1 to 'pairs' (table expected, got nil)"

/-- The tables `{lv = iLevel}`. Nothing writes to them, so one stands for all that are made with a level. -/
def levels : Tables Datum
  | r, "lv" => some (.other (.num (BitVec.ofNat 64 r)))
  | _, _ => none

/-- `formula_string(msg, {lv = iLevel})`. -/
def evalFormula (formulas : Formulas) (fm : Fm Datum) (msg : String) (iLevel : Integer) :
    Except String (EnvVal Datum) × Fm Datum :=
  formulaString formulas.meaning fm msg iLevel.toNat levels

/-! ## Skills -/

/-- The texts of the two formulas of a skill. -/
structure SkillInfo where
  skill_effect : String
  skill_effect_ratio : String

structure CSkill where
  iSkill : Int
  iLevel : Integer := 1
  mApply : Attrs := ∅
  mApplyRatio : Attrs := ∅

/-- `SetLevel`; a skill has no method `Dirty`. -/
def CSkill.setLevel (iLevel : Integer) : LuaM CSkill Unit := do
  modify fun skill => { skill with iLevel := iLevel }
  throw "attempt to call a nil value (method 'Dirty')"

/-- A skill of a player, the attributes to refresh that a method collects in `mRefresh`, and the formulas that the
service has loaded. -/
structure Effect where
  oSkillAttr : CAttrBlock
  skill : CSkill
  mRefresh : Finset String := ∅
  fm : Fm Datum := fun _ => none

namespace Effect

/-- The first loop of `SkillUnEffect`. -/
def takeApply (iSkill : Int) (o : Effect) (e : Sigma fun _ : String => Integer) : Effect :=
  { o with oSkillAttr := o.oSkillAttr.addApply iSkill e.1 (-e.2), mRefresh := insert e.1 o.mRefresh }

/-- The second loop of `SkillUnEffect`. -/
def takeRatio (iSkill : Int) (o : Effect) (e : Sigma fun _ : String => Integer) : Effect :=
  { o with oSkillAttr := o.oSkillAttr.addApplyRatio iSkill e.1 (-e.2), mRefresh := insert e.1 o.mRefresh }

def skillUnEffect (o : Effect) : Effect :=
  let o := { o with mRefresh := ∅ }
  let o := o.skill.mApply.entries.foldl (takeApply o.skill.iSkill) o
  o.skill.mApplyRatio.entries.foldl (takeRatio o.skill.iSkill) o

/-- The first loop of `SkillEffect`; it adds to the ratios. -/
def giveApply (iSkill : Int) (o : Effect) (e : Sigma fun _ : String => Integer) : Effect :=
  { o with
    oSkillAttr := o.oSkillAttr.addApplyRatio iSkill e.1 e.2
    skill := { o.skill with mApply := Accum.add o.skill.mApply e.1 e.2 }
    mRefresh := insert e.1 o.mRefresh }

/-- The second loop of `SkillEffect`. -/
def giveRatio (iSkill : Int) (o : Effect) (e : Sigma fun _ : String => Integer) : Effect :=
  { o with
    oSkillAttr := o.oSkillAttr.addApplyRatio iSkill e.1 e.2
    skill := { o.skill with mApplyRatio := Accum.add o.skill.mApplyRatio e.1 e.2 }
    mRefresh := insert e.1 o.mRefresh }

/-- `pairs(formula_string(msg, {lv = self:Level()}))`. -/
def formulaPairs (formulas : Formulas) (msg : String) : LuaM Effect Attrs := do
  let o ← get
  let (value, fm) := evalFormula formulas o.fm msg o.skill.iLevel
  set { o with fm := fm }
  match ← LuaM.lift value with
  | .other (.attrs m) => pure m
  | _ => throw "bad argument #1 to 'pairs' (table expected, got number)"

/-- One of the loops of `SkillEffect`, over what its formula gives. -/
def giveAll (formulas : Formulas) (msg : String) (give : Int → Effect → (Sigma fun _ : String => Integer) → Effect) :
    LuaM Effect Unit := do
  let mApply ← formulaPairs formulas msg
  modify fun o => mApply.entries.foldl (give o.skill.iSkill) o

def skillEffect (formulas : Formulas) (info : SkillInfo) : LuaM Effect Unit := do
  modify skillUnEffect
  giveAll formulas info.skill_effect giveApply
  giveAll formulas info.skill_effect_ratio giveRatio

end Effect

/-! ## What the formulas give -/

section Formulas

variable (formulas : Formulas)

/-- The level that is kept for a text. -/
def keptLevel (fm : Fm Datum) (msg : String) : Option Integer :=
  match (fm msg).bind fun f => f._ENV "lv" with
  | some (.other (.num lv)) => some lv
  | _ => none

/-- The level for which a text is evaluated when the level is `iLevel`. -/
def levelOf (fm : Fm Datum) (msg : String) (iLevel : Integer) : Integer := (keptLevel fm msg).getD iLevel

/-- The formulas that some calls with levels have loaded. -/
def Loaded (fm : Fm Datum) : Prop :=
  ∃ past : List (Call Datum), (∀ c ∈ past, c.tables = levels) ∧ Base.Keeps formulas.meaning past fm

theorem loaded_nil : Loaded formulas fun _ => none := ⟨[], fun _ hc => (List.not_mem_nil hc).elim, Base.keeps_nil⟩

theorem plain_levels : Base.Plain levels := fun _ => ⟨rfl, rfl⟩

theorem value_levels (c : Call Datum) (hc : c.tables = levels) :
    c.value formulas.meaning = .ok (.other (.attrs (formulas c.msg (BitVec.ofNat 64 c.env)))) := by
  unfold Call.value
  rw [hc]
  rfl

variable {formulas} {past : List (Call Datum)} {fm : Fm Datum} (hpast : ∀ c ∈ past, c.tables = levels)
  (h : Base.Keeps formulas.meaning past fm)

include hpast h in
/-- The level kept for a text is that of the first call with it. -/
theorem keptLevel_eq (msg : String) :
    keptLevel fm msg = (callsOf msg past).head?.map fun c => BitVec.ofNat 64 c.env := by
  unfold keptLevel
  rw [h msg]
  cases hof : callsOf msg past with
  | nil => rfl
  | cons first l =>
    have htables : ∀ c ∈ first :: l, c.tables = levels := fun c hc => hpast c (Base.mem_callsOf.1 (hof ▸ hc)).1
    rw [Base.keptVars_plain plain_levels htables]
    rfl

include hpast h in
/-- A call gives the table of its text for the level kept for it, for its own level when there is none. -/
theorem formulaString_level (c : Call Datum) (hc : c.tables = levels) :
    (formulaString formulas.meaning fm c.msg c.env c.tables).1 =
      .ok (.other (.attrs (formulas c.msg (levelOf fm c.msg (BitVec.ofNat 64 c.env))))) := by
  rw [(Base.formulaString_spec h c).1, levelOf, keptLevel_eq hpast h]
  cases hof : callsOf c.msg past with
  | nil => exact (Base.value_eq c).symm.trans (value_levels formulas c hc)
  | cons first l =>
    have hcalls : ∀ d ∈ first :: l, d.tables = levels ∧ d.msg = c.msg := by
      intro d hd
      have hmem := Base.mem_callsOf.1 (hof ▸ hd)
      exact ⟨hpast d hmem.1, hmem.2⟩
    obtain ⟨hfirst, hmsg⟩ := hcalls first List.mem_cons_self
    have hvalue := Base.valueFrom_plain (L := formulas.meaning) plain_levels hfirst hc hmsg
    rw [Base.keptVars_plain plain_levels fun d hd => (hcalls d hd).1, Option.getD_some, ← hfirst]
    rw [hfirst, hvalue, value_levels formulas first hfirst, hmsg]
    rfl

end Formulas

/-- What a formula gives for a level, once loaded formulas are those of calls with levels; the level it is evaluated for
is kept. -/
theorem evalFormula_spec {formulas : Formulas} {fm : Fm Datum} (h : Loaded formulas fm) (msg : String)
    (iLevel : Integer) :
    (evalFormula formulas fm msg iLevel).1 = .ok (.other (.attrs (formulas msg (levelOf fm msg iLevel)))) ∧
      Loaded formulas (evalFormula formulas fm msg iLevel).2 ∧
      ∀ msg', levelOf (evalFormula formulas fm msg iLevel).2 msg' iLevel = levelOf fm msg' iLevel := by
  obtain ⟨past, hpast, hkeeps⟩ := h
  have hnext := (Base.formulaString_spec hkeeps ⟨msg, iLevel.toNat, levels⟩).2
  have hpast' : ∀ c ∈ past ++ [⟨msg, iLevel.toNat, levels⟩], c.tables = levels := by
    intro c hc
    rcases List.mem_append.1 hc with hc | hc
    · exact hpast c hc
    · rw [List.mem_singleton.1 hc]
  have hvalue := formulaString_level hpast hkeeps ⟨msg, iLevel.toNat, levels⟩ rfl
  rw [BitVec.ofNat_toNat, BitVec.setWidth_eq] at hvalue
  refine ⟨hvalue, ⟨_, hpast', hnext⟩, fun msg' => ?_⟩
  unfold levelOf evalFormula
  rw [keptLevel_eq hpast' hnext, keptLevel_eq hpast hkeeps]
  by_cases hmsg : msg' = msg
  · subst hmsg
    rw [Base.callsOf_concat_self past ⟨msg', iLevel.toNat, levels⟩]
    cases callsOf msg' past <;> simp
  · rw [Base.callsOf_concat_ne past hmsg]

/-! ## What the loops do -/

namespace Effect

/-- For an attribute: what a source adds to it and to its ratio, and what the skill has recorded for both. -/
abbrev Amounts := Integer × Integer × Integer × Integer

def amounts (iSrc : Int) (o : Effect) (sAttr : String) : Amounts :=
  (contribution o.oSkillAttr.mApply iSrc sAttr, contribution o.oSkillAttr.mApplyRatio iSrc sAttr,
    Accum.value o.skill.mApply sAttr, Accum.value o.skill.mApplyRatio sAttr)

/-- The skill a method works on, and its level. -/
def self (o : Effect) : Int × Integer := (o.skill.iSkill, o.skill.iLevel)

section Loops

variable (iSkill : Int) (iSrc : Int) (t : Attrs) (o : Effect) (sAttr : String)

/-- An amount, for the source `iSkill` only. -/
def own (i : Integer) : Integer := if iSrc = iSkill then i else 0

theorem amounts_takeApply : amounts iSrc (t.entries.foldl (takeApply iSkill) o) sAttr =
    amounts iSrc o sAttr + (own iSkill iSrc (-Accum.value t sAttr), 0, 0, 0) := by
  refine Accum.value_foldl (f := fun i => ((own iSkill iSrc (-i), 0, 0, 0) : Amounts)) ?_ ?_ t o sAttr
  · intro o e a
    simp only [amounts, takeApply, CAttrBlock.addApply, contribution_addApplied, own]
    split <;> simp
  · simp [own]

theorem amounts_takeRatio : amounts iSrc (t.entries.foldl (takeRatio iSkill) o) sAttr =
    amounts iSrc o sAttr + (0, own iSkill iSrc (-Accum.value t sAttr), 0, 0) := by
  refine Accum.value_foldl (f := fun i => ((0, own iSkill iSrc (-i), 0, 0) : Amounts)) ?_ ?_ t o sAttr
  · intro o e a
    simp only [amounts, takeRatio, CAttrBlock.addApplyRatio, contribution_addApplied, own]
    split <;> simp
  · simp [own]

theorem amounts_giveApply : amounts iSrc (t.entries.foldl (giveApply iSkill) o) sAttr =
    amounts iSrc o sAttr + (0, own iSkill iSrc (Accum.value t sAttr), Accum.value t sAttr, 0) := by
  refine Accum.value_foldl (f := fun i => ((0, own iSkill iSrc i, i, 0) : Amounts)) ?_ ?_ t o sAttr
  · intro o e a
    simp only [amounts, giveApply, CAttrBlock.addApplyRatio, contribution_addApplied, Accum.value_add, own]
    split <;> simp
  · simp [own]

theorem amounts_giveRatio : amounts iSrc (t.entries.foldl (giveRatio iSkill) o) sAttr =
    amounts iSrc o sAttr + (0, own iSkill iSrc (Accum.value t sAttr), 0, Accum.value t sAttr) := by
  refine Accum.value_foldl (f := fun i => ((0, own iSkill iSrc i, 0, i) : Amounts)) ?_ ?_ t o sAttr
  · intro o e a
    simp only [amounts, giveRatio, CAttrBlock.addApplyRatio, contribution_addApplied, Accum.value_add, own]
    split <;> simp
  · simp [own]

end Loops

variable (formulas : Formulas) (info : SkillInfo) (o : Effect) (iSrc : Int) (sAttr : String)

section Keep

variable (iSkill : Int) (t : Attrs) (o : Effect)

/-- What the loops of `SkillUnEffect` leave as it is: the skill, and the formulas. -/
theorem kept_takeApply :
    (fun o : Effect => (o.skill, o.fm)) (t.entries.foldl (takeApply iSkill) o) = (o.skill, o.fm) :=
  Accum.keep_foldl (fun o : Effect => (o.skill, o.fm)) (takeApply iSkill) (fun _ _ => rfl) t.entries o

theorem kept_takeRatio :
    (fun o : Effect => (o.skill, o.fm)) (t.entries.foldl (takeRatio iSkill) o) = (o.skill, o.fm) :=
  Accum.keep_foldl (fun o : Effect => (o.skill, o.fm)) (takeRatio iSkill) (fun _ _ => rfl) t.entries o

theorem kept_giveApply :
    (fun o : Effect => (o.self, o.fm)) (t.entries.foldl (giveApply iSkill) o) = (o.self, o.fm) :=
  Accum.keep_foldl (fun o : Effect => (o.self, o.fm)) (giveApply iSkill) (fun _ _ => rfl) t.entries o

theorem kept_giveRatio :
    (fun o : Effect => (o.self, o.fm)) (t.entries.foldl (giveRatio iSkill) o) = (o.self, o.fm) :=
  Accum.keep_foldl (fun o : Effect => (o.self, o.fm)) (giveRatio iSkill) (fun _ _ => rfl) t.entries o

end Keep

theorem kept_skillUnEffect : o.skillUnEffect.skill = o.skill ∧ o.skillUnEffect.fm = o.fm := by
  have happly := kept_takeApply o.skill.iSkill o.skill.mApply { o with mRefresh := ∅ }
  have hratio := kept_takeRatio o.skill.iSkill o.skill.mApplyRatio
    (o.skill.mApply.entries.foldl (takeApply o.skill.iSkill) { o with mRefresh := ∅ })
  simp only [Prod.mk.injEq] at happly hratio
  unfold skillUnEffect
  simp only [happly, hratio, and_self]

/-- `SkillUnEffect` takes from the contributions of the skill what its records say, and leaves the records. -/
theorem amounts_skillUnEffect : amounts iSrc o.skillUnEffect sAttr = amounts iSrc o sAttr +
    (own o.skill.iSkill iSrc (-Accum.value o.skill.mApply sAttr),
      own o.skill.iSkill iSrc (-Accum.value o.skill.mApplyRatio sAttr), 0, 0) := by
  have happly := kept_takeApply o.skill.iSkill o.skill.mApply { o with mRefresh := ∅ }
  simp only [Prod.mk.injEq] at happly
  unfold skillUnEffect
  simp only [amounts_takeRatio, happly.1, amounts_takeApply]
  simp [amounts]

/-- The table that a formula of the skill gives. -/
def given (msg : String) : Attrs := formulas msg (levelOf o.fm msg o.skill.iLevel)

variable {formulas} {o}

/-- A formula gives its table; only the formulas change, and not what the texts give for the level of the skill. -/
theorem exec_formulaPairs (h : Loaded formulas o.fm) (msg : String) :
    ∃ fm, (formulaPairs formulas msg).exec o = (.ok (given formulas o msg), { o with fm := fm }) ∧ Loaded formulas fm ∧
      ∀ msg', levelOf fm msg' o.skill.iLevel = levelOf o.fm msg' o.skill.iLevel := by
  obtain ⟨hvalue, hloaded, hlevel⟩ := evalFormula_spec h msg o.skill.iLevel
  refine ⟨_, ?_, hloaded, hlevel⟩
  unfold formulaPairs
  rw [LuaM.exec_bind, LuaM.exec_get]
  show (LuaM.lift (evalFormula formulas o.fm msg o.skill.iLevel).1 >>= _ : LuaM Effect Attrs).exec
    { o with fm := (evalFormula formulas o.fm msg o.skill.iLevel).2 } = _
  rw [hvalue]
  rfl

/-- A loop over what a formula gives adds to each attribute what its turns add. -/
theorem exec_giveAll (h : Loaded formulas o.fm) (msg : String)
    {give : Int → Effect → (Sigma fun _ : String => Integer) → Effect} {f : Int → Integer → Amounts}
    (hkept : ∀ (t : Attrs) o', (fun o : Effect => (o.self, o.fm)) (t.entries.foldl (give o.skill.iSkill) o') =
      (o'.self, o'.fm))
    (hamounts : ∀ iSrc (t : Attrs) o' sAttr, amounts iSrc (t.entries.foldl (give o.skill.iSkill) o') sAttr =
      amounts iSrc o' sAttr + f iSrc (Accum.value t sAttr)) :
    ∃ o', (giveAll formulas msg give).exec o = (.ok (), o') ∧ Loaded formulas o'.fm ∧ o'.self = o.self ∧
      (∀ msg', given formulas o' msg' = given formulas o msg') ∧ ∀ iSrc sAttr,
        amounts iSrc o' sAttr = amounts iSrc o sAttr + f iSrc (Accum.value (given formulas o msg) sAttr) := by
  obtain ⟨fm, hexec, hloaded, hlevel⟩ := exec_formulaPairs h msg
  have hk := hkept (given formulas o msg) { o with fm := fm }
  simp only [Prod.mk.injEq] at hk
  obtain ⟨hself, hfm⟩ := hk
  have hskill := Prod.mk.inj hself
  refine ⟨(given formulas o msg).entries.foldl (give o.skill.iSkill) { o with fm := fm }, ?_, ?_, hself, ?_, ?_⟩
  · rw [giveAll, LuaM.exec_bind, hexec]
    rfl
  · rwa [hfm]
  · intro msg'
    rw [given, hfm, hskill.2]
    exact congrArg (formulas msg') (hlevel msg')
  · exact fun iSrc sAttr => hamounts iSrc _ _ sAttr

/-- `SkillEffect` does what `SkillUnEffect` does, then adds what both formulas give to the ratio, and to the records
what each of them gives. -/
theorem exec_skillEffect (h : Loaded formulas o.fm) : ∃ o', (skillEffect formulas info).exec o = (.ok (), o') ∧
    Loaded formulas o'.fm ∧ o'.self = o.self ∧
    ∀ iSrc sAttr, amounts iSrc o' sAttr = amounts iSrc o.skillUnEffect sAttr +
      (0, own o.skill.iSkill iSrc (Accum.value (given formulas o info.skill_effect) sAttr) +
          own o.skill.iSkill iSrc (Accum.value (given formulas o info.skill_effect_ratio) sAttr),
        Accum.value (given formulas o info.skill_effect) sAttr,
        Accum.value (given formulas o info.skill_effect_ratio) sAttr) := by
  obtain ⟨hskill, hfm⟩ := kept_skillUnEffect o
  have hloaded : Loaded formulas o.skillUnEffect.fm := by rwa [hfm]
  have hgiven : ∀ msg, given formulas o.skillUnEffect msg = given formulas o msg := by
    intro msg
    rw [given, given, hskill, hfm]
  obtain ⟨o₁, hexec₁, hloaded₁, hself₁, hgiven₁, hamounts₁⟩ := exec_giveAll hloaded info.skill_effect
    (f := fun iSrc i => (0, own o.skillUnEffect.skill.iSkill iSrc i, i, 0)) (kept_giveApply _) (amounts_giveApply _)
  obtain ⟨o₂, hexec₂, hloaded₂, hself₂, -, hamounts₂⟩ := exec_giveAll hloaded₁ info.skill_effect_ratio
    (f := fun iSrc i => (0, own o₁.skill.iSkill iSrc i, 0, i)) (kept_giveRatio _) (amounts_giveRatio _)
  have hiSkill : o₁.skill.iSkill = o.skill.iSkill := by
    rw [(Prod.mk.inj hself₁).1, hskill]
  refine ⟨o₂, ?_, hloaded₂, ?_, ?_⟩
  · rw [skillEffect, LuaM.exec_bind, LuaM.exec_modify]
    show (giveAll formulas info.skill_effect giveApply >>= fun _ => _).exec o.skillUnEffect = _
    rw [LuaM.exec_bind, hexec₁]
    exact hexec₂
  · rw [hself₂, hself₁, self, self, hskill]
  · intro iSrc sAttr
    rw [hamounts₂, hamounts₁, hiSkill, hskill, hgiven₁, hgiven, hgiven, add_assoc]
    simp

/-! ## Runs -/

/-- The calls on a skill, and a formula that another skill or another player evaluates. -/
inductive Op
  | setLevel (iLevel : Integer)
  | skillEffect
  | skillUnEffect
  | formulaString (msg : String) (iLevel : Integer)

variable (formulas) (o)

/-- The player and the skill after a call, whether it raised or not. -/
def step (o : Effect) : Op → Option Effect
  | .setLevel iLevel => some { o with skill := safeCall (CSkill.setLevel iLevel) o.skill }
  | .skillEffect => some (safeCall (skillEffect formulas info) o)
  | .skillUnEffect => some o.skillUnEffect
  | .formulaString msg iLevel => some { o with fm := (evalFormula formulas o.fm msg iLevel).2 }

/-- What the skill should contribute after a call; nothing is said after `SetLevel`. -/
def Right (o : Effect) (op : Op) : Prop :=
  ∀ o' ∈ step formulas info o op, ∀ sAttr,
    (∀ iSrc, iSrc ≠ o.skill.iSkill →
      contribution o'.oSkillAttr.mApply iSrc sAttr = contribution o.oSkillAttr.mApply iSrc sAttr ∧
      contribution o'.oSkillAttr.mApplyRatio iSrc sAttr = contribution o.oSkillAttr.mApplyRatio iSrc sAttr) ∧
    match op with
    | .skillEffect =>
      contribution o'.oSkillAttr.mApply o.skill.iSkill sAttr =
        Accum.value (formulas info.skill_effect o'.skill.iLevel) sAttr ∧
      contribution o'.oSkillAttr.mApplyRatio o.skill.iSkill sAttr =
        Accum.value (formulas info.skill_effect_ratio o'.skill.iLevel) sAttr
    | .skillUnEffect =>
      contribution o'.oSkillAttr.mApply o.skill.iSkill sAttr = 0 ∧
      contribution o'.oSkillAttr.mApplyRatio o.skill.iSkill sAttr = 0
    | _ => True

/-- What a call needs of the block, the records and the kept levels before it. -/
def Fits (o : Effect) (op : Op) : Prop :=
  ∀ sAttr,
    match op with
    | .skillEffect =>
      contribution o.oSkillAttr.mApply o.skill.iSkill sAttr =
        Accum.value o.skill.mApply sAttr + Accum.value (formulas info.skill_effect o.skill.iLevel) sAttr ∧
      contribution o.oSkillAttr.mApplyRatio o.skill.iSkill sAttr +
          Accum.value (formulas info.skill_effect (levelOf o.fm info.skill_effect o.skill.iLevel)) sAttr +
          Accum.value (formulas info.skill_effect_ratio (levelOf o.fm info.skill_effect_ratio o.skill.iLevel)) sAttr =
        Accum.value o.skill.mApplyRatio sAttr +
          Accum.value (formulas info.skill_effect_ratio o.skill.iLevel) sAttr
    | .skillUnEffect =>
      contribution o.oSkillAttr.mApply o.skill.iSkill sAttr = Accum.value o.skill.mApply sAttr ∧
      contribution o.oSkillAttr.mApplyRatio o.skill.iSkill sAttr = Accum.value o.skill.mApplyRatio sAttr
    | _ => True

theorem contribution_skillUnEffect :
    contribution o.skillUnEffect.oSkillAttr.mApply iSrc sAttr =
        contribution o.oSkillAttr.mApply iSrc sAttr + own o.skill.iSkill iSrc (-Accum.value o.skill.mApply sAttr) ∧
      contribution o.skillUnEffect.oSkillAttr.mApplyRatio iSrc sAttr =
        contribution o.oSkillAttr.mApplyRatio iSrc sAttr +
          own o.skill.iSkill iSrc (-Accum.value o.skill.mApplyRatio sAttr) := by
  have h := amounts_skillUnEffect o iSrc sAttr
  exact ⟨congrArg (fun x : Amounts => x.1) h, congrArg (fun x : Amounts => x.2.1) h⟩

variable {formulas} {o} in
theorem contribution_skillEffect (h : Loaded formulas o.fm) :
    contribution (safeCall (skillEffect formulas info) o).oSkillAttr.mApply iSrc sAttr =
        contribution o.skillUnEffect.oSkillAttr.mApply iSrc sAttr + 0 ∧
      contribution (safeCall (skillEffect formulas info) o).oSkillAttr.mApplyRatio iSrc sAttr =
        contribution o.skillUnEffect.oSkillAttr.mApplyRatio iSrc sAttr +
          (own o.skill.iSkill iSrc (Accum.value (given formulas o info.skill_effect) sAttr) +
            own o.skill.iSkill iSrc (Accum.value (given formulas o info.skill_effect_ratio) sAttr)) ∧
      (safeCall (skillEffect formulas info) o).skill.iLevel = o.skill.iLevel := by
  obtain ⟨o', hexec, -, hself, hamounts⟩ := exec_skillEffect info h
  rw [safeCall, hexec]
  have h := hamounts iSrc sAttr
  exact ⟨congrArg (fun x : Amounts => x.1) h, congrArg (fun x : Amounts => x.2.1) h, congrArg Prod.snd hself⟩

theorem own_self (iSkill : Int) (i : Integer) : own iSkill iSkill i = i := if_pos rfl

theorem own_ne {iSkill iSrc : Int} (h : iSrc ≠ iSkill) (i : Integer) : own iSkill iSrc i = 0 := if_neg h

variable {formulas} {info} {o}

/-- The loaded formulas are those of calls with levels, after every step. -/
theorem loaded_step {o' : Effect} {op : Op} (h : Loaded formulas o.fm) (ho : step formulas info o op = some o') :
    Loaded formulas o'.fm := by
  cases op with
  | setLevel iLevel =>
    cases ho
    exact h
  | skillEffect =>
    cases ho
    obtain ⟨o', hexec, hloaded, -, -⟩ := exec_skillEffect info h
    rwa [safeCall, hexec]
  | skillUnEffect =>
    cases ho
    rwa [(kept_skillUnEffect o).2]
  | formulaString msg iLevel =>
    cases ho
    exact (evalFormula_spec h msg iLevel).2.1

/-- The contributions of the other sources stay. -/
theorem others_kept {o' : Effect} {op : Op} (h : Loaded formulas o.fm) (ho : step formulas info o op = some o')
    {iSrc : Int} (hne : iSrc ≠ o.skill.iSkill) :
    contribution o'.oSkillAttr.mApply iSrc sAttr = contribution o.oSkillAttr.mApply iSrc sAttr ∧
      contribution o'.oSkillAttr.mApplyRatio iSrc sAttr = contribution o.oSkillAttr.mApplyRatio iSrc sAttr := by
  have hun := contribution_skillUnEffect o iSrc sAttr
  simp only [own_ne hne, add_zero] at hun
  cases op with
  | setLevel iLevel =>
    cases ho
    exact ⟨rfl, rfl⟩
  | skillEffect =>
    cases ho
    have heff := contribution_skillEffect info iSrc sAttr h
    simp only [own_ne hne, add_zero] at heff
    exact ⟨heff.1.trans hun.1, heff.2.1.trans hun.2⟩
  | skillUnEffect =>
    cases ho
    exact hun
  | formulaString msg iLevel =>
    cases ho
    exact ⟨rfl, rfl⟩

theorem right_iff (h : Loaded formulas o.fm) (op : Op) : Right formulas info o op ↔ Fits formulas info o op := by
  have hun := contribution_skillUnEffect o o.skill.iSkill
  simp only [own_self] at hun
  constructor
  · intro hright sAttr
    cases op with
    | setLevel iLevel => trivial
    | skillEffect =>
      have hr := (hright _ rfl sAttr).2
      have heff := contribution_skillEffect info o.skill.iSkill sAttr h
      simp only [own_self, hun, given] at heff
      simp only [heff] at hr ⊢
      grind
    | skillUnEffect =>
      have hr := (hright _ rfl sAttr).2
      simp only [hun] at hr ⊢
      grind
    | formulaString msg iLevel => trivial
  · intro hfits o' ho sAttr
    refine ⟨fun iSrc hne => others_kept sAttr h ho hne, ?_⟩
    have hf := hfits sAttr
    cases op with
    | setLevel iLevel => trivial
    | skillEffect =>
      cases ho
      have heff := contribution_skillEffect info o.skill.iSkill sAttr h
      simp only [own_self, hun, given] at heff
      simp only [heff] at hf ⊢
      grind
    | skillUnEffect =>
      cases ho
      simp only [hun] at hf ⊢
      grind
    | formulaString msg iLevel => trivial

/-- In every run from a new service, from any state of the block and of the skill, the skill contributes what it should
after every call iff every call finds the records and the kept levels as it needs them. -/
theorem effects_iff (formulas : Formulas) (info : SkillInfo) (oSkillAttr : CAttrBlock) (skill : CSkill)
    (ops : List Op) :
    StepSys.Along (step formulas info) (Right formulas info) { oSkillAttr, skill } ops ↔
      StepSys.Along (step formulas info) (Fits formulas info) { oSkillAttr, skill } ops :=
  StepSys.along_congr_of_inv (I := fun o => Loaded formulas o.fm) (fun h _ ho => loaded_step h ho)
    (fun h _ => right_iff h _) (loaded_nil formulas) ops

/-- A text that gives 100 hit points a level, and one that gives nothing. -/
def maxHp : Formulas
  | "{max_hp = 100*lv}", iLevel => AList.singleton "max_hp" (100 * iLevel)
  | _, _ => ∅

def maxHpInfo : SkillInfo where
  skill_effect := "{max_hp = 100*lv}"
  skill_effect_ratio := "{}"

/-- The first effect of a new skill adds nothing to the hit points. -/
theorem not_effects : ¬ StepSys.Along (step maxHp maxHpInfo) (Right maxHp maxHpInfo)
    { oSkillAttr := {}, skill := { iSkill := 1002 } } [.skillEffect] := by
  intro h
  have hright := ((h _ rfl).1 _ rfl "max_hp").2.1
  revert hright
  decide

end Effect

end RoundGame.World
