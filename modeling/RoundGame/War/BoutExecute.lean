import Mathlib.Data.List.Sort
import RoundGame.Lib.Loop
import RoundGame.War.CWar

/-!
# The turns of a round

`BoutExecute` lists the commands with the speeds of their warriors, sorts the list and takes the fastest entry from its
end, again and again. An entry is removed when its warrior has acted. One whose warrior is dead or gone is not, except
that the last entry of all is when its warrior is gone; so the loop goes on with it for ever.

- The loop ends iff the sort raises, or every warrior is alive when its turn comes, but for the last one, which may be
  gone (`boutExecute_ends_iff`).
- The warriors act in the turns they should take (`turns`) iff nobody acts after a camp is beaten, and the first
  warrior that is dead or gone comes after all that could still act; if the sort raises, iff nobody could act at all
  (`boutExecute_turns_iff`). The sort raises when two speeds are equal.
-/

namespace RoundGame.War

open Function Loop

/-- An entry of `lExecuteList`: `{iWid, iSpeed}`. -/
structure SpeedInfo where
  iWid : Wid
  iSpeed : Int
  deriving DecidableEq

/-- `sort_func`; an entry has no method `GetWid`. -/
def sortFunc (x y : SpeedInfo) : Except String Bool :=
  if x.iSpeed = y.iSpeed then .error "attempt to call a nil value (method 'GetWid')"
  else .ok (decide (x.iSpeed < y.iSpeed))

/-- `table.sort(l, sort_func)`. Which entries it compares is its own business; it may compare an entry with itself. When
it does not raise, the result is in order, and it does not raise on a list that is in order. -/
structure TableSort where
  sort : List SpeedInfo → Except String (List SpeedInfo)
  sorted : ∀ l l', sort l = .ok l' → l'.Perm l ∧ l'.Pairwise fun x y => sortFunc x y = .ok true
  again : ∀ l, (l.Pairwise fun x y => sortFunc x y = .ok true) → sort l = .ok l

/-- What a round of a war uses: `GetSpeed`, `table.sort`, and the protected calls of the actions. -/
structure RoundEnv extends WarEnv, TableSort where
  getSpeed : Wid → MCmd → Int

/-! ## The loop -/

inductive LoopStatus
  | running
  | left
  | raised (e : String)

/-- The variables of `BoutExecute` in its loop. `acts` lists the warriors that have acted, the first one first. -/
structure Exec where
  fight : Fight
  lExecuteList : List SpeedInfo
  lDeadWarrior : List SpeedInfo := []
  acts : List Wid := []
  status : LoopStatus := .running

namespace Fight

def getWarrior (σ : Fight) (iWid : Wid) : Option CWarrior := σ.mWarriors iWid

/-- The warrior is there and alive. -/
def canAct (σ : Fight) (iWid : Wid) : Bool := (σ.getWarrior iWid).any CWarrior.isAlive

def setAction (iWid : Wid) (σ : Fight) : Fight :=
  { σ with mWarriors := update σ.mWarriors iWid ((σ.mWarriors iWid).map fun o => { o with bAction := true }) }

def getAliveCount (σ : Fight) (lCamp : List Wid) : Nat := (lCamp.filter fun iWid => σ.canAct iWid).length

end Fight

namespace CWar

variable (env : RoundEnv) (w : CWar)

/-- The commands of the warriors that are there, `mExecuteCmd`. `CheckChangeCmd` changes none. -/
def executeCmd : List (Wid × MCmd) := w.mBoutCmd.filter fun c => (w.getWarrior c.1).isSome

/-- `lExecuteList` before it is sorted. -/
def executeList : List SpeedInfo :=
  (w.executeCmd.filter fun c => !c.2.ignoreSpeed).map fun c => ⟨c.1, env.getSpeed c.1 c.2⟩

/-- The warriors that defend or protect have acted. -/
def prepared : Fight :=
  (w.executeCmd.filter fun c => c.2.ignoreSpeed).foldl (fun σ c => σ.setAction c.1) w.toFight

/-- What the warrior does in its turn. -/
def action (iWid : Wid) (σ : Fight) : Fight :=
  match w.executeCmd.lookup iWid with
  | some (.skill iSkill iTarget) => env.act iWid (.skill iSkill iTarget) (σ.setAction iWid)
  | some (.normalAttack iTarget) => env.act iWid (.normalAttack iTarget) (σ.setAction iWid)
  | _ => σ.setAction iWid

/-- The first half of a turn of the loop: the entry at the end of the list. -/
def takeTurn (x : Exec) : Exec :=
  match x.lExecuteList.getLast? with
  | none => { x with status := .left }
  | some info =>
    match x.fight.getWarrior info.iWid with
    | none => x
    | some oWarrior =>
      if !oWarrior.isAlive then { x with lDeadWarrior := x.lDeadWarrior ++ [info] }
      else
        { x with
          fight := w.action env info.iWid x.fight
          lExecuteList := x.lExecuteList.dropLast
          acts := x.acts ++ [info.iWid] }

/-- The clean-up of the list. Its loop counts up from the length of the list to 1; an empty list gets back the warriors
that were dead and have not acted. -/
def cleanUp (x : Exec) : Exec :=
  match x.lExecuteList with
  | [] =>
    { x with
      lExecuteList := x.lDeadWarrior.filter fun info =>
        (x.fight.getWarrior info.iWid).any fun oWarrior => oWarrior.isAlive && !oWarrior.bAction }
  | [info] => if (x.fight.getWarrior info.iWid).isNone then { x with lExecuteList := [] } else x
  | _ => x

/-- The rest of a turn of the loop. -/
def endTurn (x : Exec) : Exec :=
  if x.fight.getAliveCount w.lCamp1 < 0 ∨ x.fight.getAliveCount w.lCamp2 < 0 then { x with status := .left }
  else
    match env.sort (cleanUp x).lExecuteList with
    | .error e => { cleanUp x with status := .raised e }
    | .ok lExecuteList => { cleanUp x with lExecuteList := lExecuteList }

/-- A turn of the loop of `BoutExecute`. -/
def nextTurn (x : Exec) : Option Exec :=
  match x.status with
  | .running =>
    if x.lExecuteList.length = 0 then none else some (w.endTurn env (w.takeTurn env x))
  | _ => none

/-- Where the loop of `BoutExecute` starts. -/
def startExec : Exec :=
  match env.sort (w.executeList env) with
  | .error e => { fight := w.prepared, lExecuteList := w.executeList env, status := .raised e }
  | .ok lExecuteList => { fight := w.prepared, lExecuteList := lExecuteList }

end CWar

/-! ## The turns as they should be taken -/

/-- The faster warrior acts first; at equal speed the one with the smaller id. -/
def Before (x y : SpeedInfo) : Prop := y.iSpeed < x.iSpeed ∨ x.iSpeed = y.iSpeed ∧ x.iWid ≤ y.iWid

instance : DecidableRel Before := fun x y =>
  inferInstanceAs (Decidable (y.iSpeed < x.iSpeed ∨ x.iSpeed = y.iSpeed ∧ x.iWid ≤ y.iWid))

def inOrder (l : List SpeedInfo) : List SpeedInfo := l.insertionSort Before

namespace CWar

variable (env : RoundEnv) (w : CWar)

/-- A camp has no living warrior. -/
def beaten (σ : Fight) : Bool := σ.getAliveCount w.lCamp1 = 0 || σ.getAliveCount w.lCamp2 = 0

/-- Each warrior in turn. One that is dead or gone is skipped; `next` goes on after the others. -/
def pass (next : List SpeedInfo → Fight → List Wid) : List SpeedInfo → List SpeedInfo → Fight → List Wid
  | [], lSkipped, σ => next lSkipped σ
  | info :: l, lSkipped, σ =>
    if w.beaten σ then []
    else if σ.canAct info.iWid then info.iWid :: pass next l lSkipped (w.action env info.iWid σ)
    else pass next l (lSkipped ++ [info]) σ

/-- The warriors that act, in their order. Those that were skipped act after the others, if they are alive by then; each
time at least one of them acts, so that `n` times are enough for `n` entries. -/
def turns : Nat → List SpeedInfo → List SpeedInfo → Fight → List Wid
  | 0, l, lSkipped, σ => w.pass env (fun _ _ => []) l lSkipped σ
  | n + 1, l, lSkipped, σ =>
    w.pass env (fun lSkipped σ =>
      turns n (lSkipped.filter fun info => σ.canAct info.iWid) (lSkipped.filter fun info => !σ.canAct info.iWid) σ)
      l lSkipped σ

/-- The turns of a round. -/
def expected : List Wid :=
  w.turns env (w.executeList env).length (inOrder (w.executeList env)) [] w.prepared

/-! ## The conditions -/

/-- Every warrior is alive when its turn comes, but for the last one, which may be gone. -/
def Taken : List SpeedInfo → Fight → Prop
  | [], _ => True
  | info :: l, σ =>
    if σ.canAct info.iWid then Taken l (w.action env info.iWid σ)
    else σ.getWarrior info.iWid = none ∧ l = []

/-- Nobody acts after a camp is beaten; the first warrior that is dead or gone comes after all that could act. -/
def Smooth : List SpeedInfo → Fight → Prop
  | [], _ => True
  | info :: l, σ =>
    if σ.canAct info.iWid then w.beaten σ = false ∧ Smooth l (w.action env info.iWid σ)
    else w.beaten σ = true ∨ ∀ info ∈ l, σ.canAct info.iWid = false

/-- The turns are smooth; if the sort raises, nobody could act at all. -/
def SmoothRound : Prop :=
  match env.sort (w.executeList env) with
  | .error _ => w.beaten w.prepared = true ∨ ∀ info ∈ w.executeList env, w.prepared.canAct info.iWid = false
  | .ok _ => w.Smooth env (inOrder (w.executeList env)) w.prepared

/-- The warriors that do act: those before the first one that is dead or gone. -/
def acted : List SpeedInfo → Fight → List Wid
  | [], _ => []
  | info :: l, σ => if σ.canAct info.iWid then info.iWid :: acted l (w.action env info.iWid σ) else []

end CWar

/-! ## The order of the list -/

section Order

variable {env : RoundEnv} {l l' : List SpeedInfo}

theorem sortFunc_eq_true {x y : SpeedInfo} : sortFunc x y = .ok true ↔ x.iSpeed < y.iSpeed := by
  unfold sortFunc
  split
  · rename_i h
    exact iff_of_false (fun hc => nomatch hc) (h ▸ lt_irrefl _)
  · simp

instance : Std.Total Before where
  total x y := by
    rcases lt_trichotomy x.iSpeed y.iSpeed with h | h | h
    · exact Or.inr (Or.inl h)
    · exact (le_total x.iWid y.iWid).imp (fun hw => Or.inr ⟨h, hw⟩) fun hw => Or.inr ⟨h.symm, hw⟩
    · exact Or.inl (Or.inl h)

instance : IsTrans SpeedInfo Before where
  trans x y z := by
    rintro (hxy | ⟨hxy, hw⟩) (hyz | ⟨hyz, hw'⟩)
    · exact Or.inl (hyz.trans hxy)
    · exact Or.inl (hyz ▸ hxy)
    · exact Or.inl (hxy ▸ hyz)
    · exact Or.inr ⟨hxy.trans hyz, hw.trans hw'⟩

theorem Before.antisymm {x y : SpeedInfo} (hxy : Before x y) (hyx : Before y x) : x = y := by
  obtain ⟨iWid, iSpeed⟩ := x
  obtain ⟨iWid', iSpeed'⟩ := y
  rcases hxy with hlt | ⟨heq, hle⟩
  · rcases hyx with hlt' | ⟨heq', -⟩
    · exact absurd hlt hlt'.asymm
    · exact absurd hlt (heq' ▸ lt_irrefl _)
  · rcases hyx with hlt' | ⟨-, hle'⟩
    · exact absurd hlt' (heq ▸ lt_irrefl _)
    · rw [SpeedInfo.mk.injEq]
      exact ⟨le_antisymm hle hle', heq⟩

/-- A list that is sorted without an error has the fastest warrior at its end. -/
theorem reverse_eq_inOrder (h : env.sort l = .ok l') : l'.reverse = inOrder l := by
  obtain ⟨hperm, hsorted⟩ := env.sorted l l' h
  have hrev : l'.reverse.Pairwise Before := by
    rw [List.pairwise_reverse]
    exact hsorted.imp fun hxy => Or.inl (sortFunc_eq_true.1 hxy)
  refine List.Perm.eq_of_pairwise (fun _ _ _ _ => Before.antisymm) hrev (List.pairwise_insertionSort Before l) ?_
  exact ((List.reverse_perm l').trans hperm).trans (List.perm_insertionSort Before l).symm

end Order

/-! ## One turn of the loop -/

/-- The fastest warrior comes first. -/
def InTurn (l : List SpeedInfo) : Prop := l.Pairwise fun x y => y.iSpeed < x.iSpeed

/-- The loop when the warriors of `l` are still to act. -/
def waiting (l : List SpeedInfo) (σ : Fight) (acts : List Wid) (lDead : List SpeedInfo := []) : Exec :=
  { fight := σ, lExecuteList := l.reverse, lDeadWarrior := lDead, acts := acts }

/-- The clean-up of the list, as far as it does something. -/
def tidied (σ : Fight) : List SpeedInfo → List SpeedInfo
  | [info] => if (σ.getWarrior info.iWid).isNone then [] else [info]
  | l => l

namespace CWar

section Turn

variable (env : RoundEnv) (w : CWar) {info : SpeedInfo} {l : List SpeedInfo} {σ : Fight} (acts : List Wid)

theorem endTurn_eq {x : Exec} (h : InTurn l) (hx : (cleanUp x).lExecuteList = l.reverse) :
    w.endTurn env x = cleanUp x := by
  have hsort : env.sort l.reverse = .ok l.reverse := by
    refine env.again _ ?_
    rw [List.pairwise_reverse]
    exact h.imp sortFunc_eq_true.2
  unfold endTurn
  rw [if_neg (by simp), hx, hsort]
  exact congrArg (fun l => { cleanUp x with lExecuteList := l }) hx.symm

/-- A list of several entries is left as it is, and so is one entry whose warrior is there. -/
theorem cleanUp_kept {x : Exec} (hne : x.lExecuteList ≠ [])
    (hx : ∀ info, x.lExecuteList = [info] → (x.fight.getWarrior info.iWid).isSome) : cleanUp x = x := by
  unfold cleanUp
  split
  · rename_i hnil
    exact absurd hnil hne
  · rename_i info hsingle
    rw [if_neg (by simp [Option.isSome_iff_ne_none.1 (hx info hsingle)])]
  · rfl

theorem tidied_gone (hgone : σ.getWarrior info.iWid = none) : tidied σ [info] = [] := by
  show (if (σ.getWarrior info.iWid).isNone then [] else [info]) = []
  rw [hgone]
  rfl

theorem tidied_there {oWarrior : CWarrior} (hthere : σ.getWarrior info.iWid = some oWarrior) :
    tidied σ [info] = [info] := by
  show (if (σ.getWarrior info.iWid).isNone then [] else [info]) = [info]
  rw [hthere]
  rfl

/-- What the clean-up takes out of the list is the last warrior, when it is gone. -/
theorem tidied_cases (σ : Fight) (l : List SpeedInfo) :
    tidied σ l = l ∨ ∃ info, l = [info] ∧ σ.getWarrior info.iWid = none ∧ tidied σ l = [] := by
  match l with
  | [] => exact Or.inl rfl
  | [info] =>
    cases hgone : σ.getWarrior info.iWid with
    | none => exact Or.inr ⟨info, rfl, hgone, tidied_gone hgone⟩
    | some oWarrior => exact Or.inl (tidied_there hgone)
  | _ :: _ :: _ => exact Or.inl rfl

theorem cleanUp_waiting : cleanUp (waiting l σ acts) = waiting (tidied σ l) σ acts := by
  match l with
  | [] => rfl
  | [info] =>
    show (if (σ.getWarrior info.iWid).isNone then _ else _) = _
    cases hgone : σ.getWarrior info.iWid with
    | none =>
      rw [tidied_gone hgone]
      rfl
    | some oWarrior =>
      rw [tidied_there hgone]
      rfl
  | x :: y :: l =>
    refine cleanUp_kept (by simp [waiting]) fun info hsingle => ?_
    have hlen := congrArg List.length hsingle
    simp [waiting] at hlen

theorem inTurn_tidied (h : InTurn l) : InTurn (tidied σ l) := by
  rcases tidied_cases σ l with heq | ⟨_, _, _, heq⟩
  · rwa [heq]
  · rw [heq]
    exact List.Pairwise.nil

theorem endTurn_waiting (h : InTurn l) :
    w.endTurn env (waiting l σ acts) = waiting (tidied σ l) σ acts := by
  rw [endTurn_eq env w (inTurn_tidied h) (by rw [cleanUp_waiting]; rfl), cleanUp_waiting]

theorem nextTurn_cons : w.nextTurn env (waiting (info :: l) σ acts) =
    some (w.endTurn env (w.takeTurn env (waiting (info :: l) σ acts))) := by
  unfold nextTurn waiting
  rw [if_neg (by simp)]

theorem getLast?_waiting (lDead : List SpeedInfo) :
    (waiting (info :: l) σ acts lDead).lExecuteList.getLast? = some info := by
  simp [waiting]

theorem dropLast_waiting (lDead : List SpeedInfo) :
    (waiting (info :: l) σ acts lDead).lExecuteList.dropLast = l.reverse := by
  simp [waiting]

/-- A warrior that is alive acts. -/
theorem nextTurn_act (h : InTurn (info :: l)) (hact : σ.canAct info.iWid = true) :
    w.nextTurn env (waiting (info :: l) σ acts) =
      some (waiting (tidied (w.action env info.iWid σ) l) (w.action env info.iWid σ) (acts ++ [info.iWid])) := by
  have htake : w.takeTurn env (waiting (info :: l) σ acts) =
      waiting l (w.action env info.iWid σ) (acts ++ [info.iWid]) := by
    unfold takeTurn
    rw [getLast?_waiting, dropLast_waiting]
    unfold Fight.canAct at hact
    show (match σ.getWarrior info.iWid with | none => _ | some oWarrior => _) = _
    cases ho : σ.getWarrior info.iWid with
    | none =>
      rw [ho] at hact
      cases hact
    | some oWarrior =>
      rw [ho] at hact
      have halive : oWarrior.isAlive = true := hact
      dsimp only
      rw [halive]
      rfl
  rw [nextTurn_cons, htake, endTurn_waiting env w _ h.of_cons]

/-- A warrior that cannot act is put with the dead ones, or nothing happens. -/
theorem takeTurn_skip (hact : σ.canAct info.iWid = false) (lDead : List SpeedInfo) :
    ∃ lDead', w.takeTurn env (waiting (info :: l) σ acts lDead) =
        waiting (info :: l) σ acts lDead' ∧
      (σ.getWarrior info.iWid = none → lDead' = lDead) := by
  unfold Fight.canAct at hact
  unfold takeTurn
  rw [getLast?_waiting]
  dsimp only [waiting]
  cases ho : σ.getWarrior info.iWid with
  | none => exact ⟨lDead, rfl, fun _ => rfl⟩
  | some oWarrior =>
    rw [ho] at hact
    have hdead : oWarrior.isAlive = false := hact
    dsimp only
    rw [hdead]
    exact ⟨lDead ++ [info], rfl, fun hc => nomatch hc⟩

/-- Then it stays in the list, unless it is gone and the last one. -/
theorem nextTurn_skip (h : InTurn (info :: l)) (hact : σ.canAct info.iWid = false)
    (hstuck : σ.getWarrior info.iWid = none → l ≠ []) (lDead : List SpeedInfo) :
    ∃ lDead', w.nextTurn env (waiting (info :: l) σ acts lDead) =
      some (waiting (info :: l) σ acts lDead') := by
  obtain ⟨lDead', htake, -⟩ := takeTurn_skip env w (l := l) acts hact lDead
  have hclean : cleanUp (waiting (info :: l) σ acts lDead') =
      waiting (info :: l) σ acts lDead' := by
    refine cleanUp_kept (by simp [waiting]) fun info' hsingle => ?_
    have hrev : info :: l = [info'] := by
      rw [← List.reverse_reverse (info :: l), show (info :: l).reverse = [info'] from hsingle]
      rfl
    cases hrev
    cases ho : σ.getWarrior info.iWid with
    | none => exact absurd rfl (hstuck ho)
    | some oWarrior => exact Option.isSome_iff_exists.2 ⟨oWarrior, ho⟩
  have hend : w.endTurn env (waiting (info :: l) σ acts lDead') =
      waiting (info :: l) σ acts lDead' := by
    rw [endTurn_eq env w h (by rw [hclean]; rfl), hclean]
  refine ⟨lDead', ?_⟩
  unfold nextTurn
  rw [htake, hend]
  show (if _ then _ else _) = _
  rw [if_neg (by simp [waiting])]

/-- The last warrior is taken out of the list when it is gone. -/
theorem nextTurn_last (hgone : σ.getWarrior info.iWid = none) :
    w.nextTurn env (waiting [info] σ acts) = some (waiting [] σ acts) := by
  have hact : σ.canAct info.iWid = false := by
    unfold Fight.canAct
    rw [hgone]
    rfl
  obtain ⟨lDead', htake, hnone⟩ := takeTurn_skip env w (l := []) acts hact []
  rw [hnone hgone] at htake
  rw [nextTurn_cons, show w.takeTurn env (waiting [info] σ acts) = waiting [info] σ acts from htake,
    endTurn_waiting env w acts (List.pairwise_singleton _ _)]
  rw [tidied_gone hgone]

end Turn

/-! ## The whole loop -/

section Whole

variable (env : RoundEnv) (w : CWar) {info : SpeedInfo} {l : List SpeedInfo} {σ : Fight} (acts : List Wid)

/-- The loop stands still at a warrior that is dead, or gone before others. -/
theorem stands (h : InTurn (info :: l)) (hact : σ.canAct info.iWid = false)
    (hstuck : σ.getWarrior info.iWid = none → l ≠ []) :
    Kind (w.nextTurn env) fun x => ∃ lDead, x = waiting (info :: l) σ acts lDead := by
  rintro _ ⟨lDead, rfl⟩
  obtain ⟨lDead', hnext⟩ := nextTurn_skip env w acts h hact hstuck lDead
  exact ⟨_, hnext, lDead', rfl⟩

theorem canAct_of_gone (hgone : σ.getWarrior info.iWid = none) : σ.canAct info.iWid = false := by
  unfold Fight.canAct
  rw [hgone]
  rfl

/-- A warrior that cannot act is the last one and gone, or the loop stands still. -/
theorem gone_or_stuck (info : SpeedInfo) (l : List SpeedInfo) (σ : Fight) :
    (σ.getWarrior info.iWid = none ∧ l = []) ∨ (σ.getWarrior info.iWid = none → l ≠ []) := by
  by_cases hl : l = []
  · exact (Option.eq_none_or_eq_some (σ.getWarrior info.iWid)).imp (fun h => ⟨h, hl⟩) fun ⟨_, h⟩ hc => by
      rw [h] at hc
      cases hc
  · exact Or.inr fun _ => hl

theorem ends_iff_taken (h : InTurn l) : Ends (w.nextTurn env) (waiting l σ acts) ↔ w.Taken env l σ := by
  induction l generalizing σ acts with
  | nil => exact iff_of_true (ends_of_none rfl) trivial
  | cons info l ih =>
    unfold Taken
    cases hact : σ.canAct info.iWid with
    | true =>
      rw [if_pos rfl, ends_iff (nextTurn_act env w acts h hact)]
      rcases tidied_cases (w.action env info.iWid σ) l with heq | ⟨info', rfl, hgone, heq⟩
      · rw [heq]
        exact ih _ h.of_cons
      · rw [heq]
        refine iff_of_true (ends_of_none rfl) ?_
        unfold Taken
        rw [canAct_of_gone hgone, if_neg (by decide)]
        exact ⟨hgone, rfl⟩
    | false =>
      rw [if_neg (by decide)]
      rcases gone_or_stuck info l σ with ⟨hgone, rfl⟩ | hstuck
      · rw [ends_iff (nextTurn_last env w acts hgone)]
        exact iff_of_true (ends_of_none rfl) ⟨hgone, rfl⟩
      · exact iff_of_false (not_ends (stands env w acts h hact hstuck) ⟨[], rfl⟩) fun ⟨hgone, hl⟩ => hstuck hgone hl

theorem settles_iff_acted (h : InTurn l) (lActs : List Wid) :
    Settles (w.nextTurn env) Exec.acts (waiting l σ acts) lActs ↔ acts ++ w.acted env l σ = lActs := by
  induction l generalizing σ acts with
  | nil =>
    rw [settles_of_none rfl, show w.acted env [] σ = [] from rfl, List.append_nil]
    rfl
  | cons info l ih =>
    unfold acted
    cases hact : σ.canAct info.iWid with
    | true =>
      rw [if_pos rfl, settles_iff (nextTurn_act env w acts h hact),
        List.append_cons acts info.iWid (w.acted env l _)]
      rcases tidied_cases (w.action env info.iWid σ) l with heq | ⟨info', rfl, hgone, heq⟩
      · rw [heq]
        exact ih _ h.of_cons
      · rw [heq, settles_of_none rfl]
        unfold acted
        rw [canAct_of_gone hgone, if_neg (by decide), List.append_nil]
        rfl
    | false =>
      rw [if_neg (by decide), List.append_nil]
      rcases gone_or_stuck info l σ with ⟨hgone, rfl⟩ | hstuck
      · rw [settles_iff (nextTurn_last env w acts hgone), settles_of_none rfl]
        rfl
      · rw [settles_of_kind (I := fun x => ∃ lDead, x = waiting (info :: l) σ acts lDead) ?_ ⟨[], rfl⟩]
        · rfl
        · rintro _ ⟨⟨lDead, rfl⟩, -⟩
          obtain ⟨t, hnext, lDead', rfl⟩ := stands env w acts h hact hstuck _ ⟨lDead, rfl⟩
          exact ⟨_, hnext, ⟨lDead', rfl⟩, rfl⟩

theorem startExec_raised {e : String} (h : env.sort (w.executeList env) = .error e) :
    ∃ l, w.startExec env = { fight := w.prepared, lExecuteList := l, status := .raised e } := by
  refine ⟨w.executeList env, ?_⟩
  unfold startExec
  rw [h]

theorem startExec_sorted {l : List SpeedInfo} (h : env.sort (w.executeList env) = .ok l) :
    w.startExec env = waiting (inOrder (w.executeList env)) w.prepared [] ∧ InTurn (inOrder (w.executeList env)) := by
  rw [← reverse_eq_inOrder h]
  constructor
  · unfold startExec waiting
    rw [h, List.reverse_reverse]
  · unfold InTurn
    rw [List.pairwise_reverse]
    exact (env.sorted _ _ h).2.imp sortFunc_eq_true.1

/-- The loop ends iff the sort raises, or every warrior is alive when its turn comes, but for the last one, which may be
gone. -/
theorem boutExecute_ends_iff : Ends (w.nextTurn env) (w.startExec env) ↔
    (∃ e, env.sort (w.executeList env) = .error e) ∨ w.Taken env (inOrder (w.executeList env)) w.prepared := by
  cases h : env.sort (w.executeList env) with
  | error e =>
    obtain ⟨l, hstart⟩ := startExec_raised env w h
    rw [hstart]
    exact iff_of_true (ends_of_none rfl) (Or.inl ⟨e, rfl⟩)
  | ok l =>
    obtain ⟨hstart, hturn⟩ := startExec_sorted env w h
    rw [hstart, ends_iff_taken env w [] hturn]
    exact ⟨Or.inr, fun hc => hc.resolve_left fun ⟨_, he⟩ => nomatch he⟩

end Whole

/-! ## The turns that should be taken -/

section Turns

variable {env : RoundEnv} {w : CWar} {next : List SpeedInfo → Fight → List Wid} {info : SpeedInfo}
  {l lSkipped : List SpeedInfo} {σ : Fight}

theorem pass_beaten (h : w.beaten σ = true) : w.pass env next (info :: l) lSkipped σ = [] := if_pos h

theorem pass_act (hb : w.beaten σ = false) (hact : σ.canAct info.iWid = true) :
    w.pass env next (info :: l) lSkipped σ =
      info.iWid :: w.pass env next l lSkipped (w.action env info.iWid σ) := by
  conv_lhs => unfold pass
  rw [hb, hact]
  rfl

theorem pass_skip (hb : w.beaten σ = false) (hact : σ.canAct info.iWid = false) :
    w.pass env next (info :: l) lSkipped σ = w.pass env next l (lSkipped ++ [info]) σ := by
  conv_lhs => unfold pass
  rw [hb, hact]
  rfl

/-- Nobody acts in a pass iff a camp is beaten or nobody of the list could, and nobody acts after the pass. -/
theorem pass_eq_nil_iff (hnext : ∀ lSkipped, (∀ info ∈ lSkipped, σ.canAct info.iWid = false) → next lSkipped σ = [])
    (hb : w.beaten σ = false) (hsk : ∀ info ∈ lSkipped, σ.canAct info.iWid = false) :
    w.pass env next l lSkipped σ = [] ↔ ∀ info ∈ l, σ.canAct info.iWid = false := by
  induction l generalizing lSkipped with
  | nil => exact iff_of_true (hnext _ hsk) (List.forall_mem_nil _)
  | cons info l ih =>
    rw [List.forall_mem_cons]
    cases hact : σ.canAct info.iWid with
    | true =>
      rw [pass_act hb hact]
      exact iff_of_false (fun hc => nomatch hc) fun hc => nomatch hc.1
    | false =>
      rw [pass_skip hb hact, ih]
      · exact (and_iff_right rfl).symm
      · rw [List.forall_mem_append, List.forall_mem_singleton]
        exact ⟨hsk, hact⟩

theorem turns_beaten (h : w.beaten σ = true) (n : Nat) : w.turns env n l lSkipped σ = [] := by
  induction n generalizing l lSkipped with
  | zero => cases l with
    | nil => rfl
    | cons info l => exact pass_beaten h
  | succ n ih => cases l with
    | nil => exact ih
    | cons info l => exact pass_beaten h

theorem turns_eq_nil_iff (hsk : ∀ info ∈ lSkipped, σ.canAct info.iWid = false) (n : Nat) :
    w.turns env n l lSkipped σ = [] ↔ w.beaten σ = true ∨ ∀ info ∈ l, σ.canAct info.iWid = false := by
  cases hb : w.beaten σ with
  | true => exact iff_of_true (turns_beaten hb n) (Or.inl rfl)
  | false =>
    rw [or_iff_right Bool.false_ne_true]
    induction n generalizing l lSkipped with
    | zero => exact pass_eq_nil_iff (fun _ _ => rfl) hb hsk
    | succ n ih =>
      refine pass_eq_nil_iff (fun lSkipped' hsk' => (ih fun info hmem => ?_).2 fun info hmem => ?_) hb hsk
      · exact hsk' info (List.mem_of_mem_filter hmem)
      · exact hsk' info (List.mem_of_mem_filter hmem)

theorem turns_act (hb : w.beaten σ = false) (hact : σ.canAct info.iWid = true) (n : Nat) :
    w.turns env n (info :: l) lSkipped σ = info.iWid :: w.turns env n l lSkipped (w.action env info.iWid σ) := by
  cases n with
  | zero => exact pass_act hb hact
  | succ n => exact pass_act hb hact

theorem pass_subperm (hnext : ∀ lSkipped σ, (next lSkipped σ).Subperm (lSkipped.map SpeedInfo.iWid)) :
    (w.pass env next l lSkipped σ).Subperm ((lSkipped ++ l).map SpeedInfo.iWid) := by
  induction l generalizing lSkipped σ with
  | nil =>
    rw [List.append_nil]
    exact hnext lSkipped σ
  | cons info l ih =>
    cases hb : w.beaten σ with
    | true =>
      rw [pass_beaten hb]
      exact List.nil_subperm
    | false =>
      cases hact : σ.canAct info.iWid with
      | true =>
        rw [pass_act hb hact]
        exact (List.subperm_cons _).2 ih |>.trans (List.perm_middle.map SpeedInfo.iWid).symm.subperm
      | false =>
        rw [pass_skip hb hact, List.append_cons lSkipped info l]
        exact ih

theorem turns_subperm (n : Nat) : (w.turns env n l lSkipped σ).Subperm ((lSkipped ++ l).map SpeedInfo.iWid) := by
  induction n generalizing l lSkipped σ with
  | zero => exact pass_subperm fun _ _ => List.nil_subperm
  | succ n ih =>
    refine pass_subperm fun lSkipped σ => ih.trans (List.Perm.subperm (List.Perm.map _ ?_))
    exact List.perm_append_comm.trans (List.filter_append_perm (fun info => σ.canAct info.iWid) lSkipped)

/-- Each warrior acts once at most. -/
theorem expected_subperm (env : RoundEnv) (w : CWar) :
    (w.expected env).Subperm ((w.executeList env).map SpeedInfo.iWid) :=
  (turns_subperm _).trans ((List.perm_insertionSort Before _).map _).subperm

/-- The warriors that do act are those that should, iff the turns are smooth. -/
theorem acted_eq_turns_iff (n : Nat) : w.acted env l σ = w.turns env n l [] σ ↔ w.Smooth env l σ := by
  induction l generalizing σ with
  | nil =>
    have hnil : w.turns env n [] [] σ = [] :=
      (turns_eq_nil_iff (List.forall_mem_nil _) n).2 (Or.inr (List.forall_mem_nil _))
    exact iff_of_true hnil.symm trivial
  | cons info l ih =>
    unfold acted Smooth
    cases hact : σ.canAct info.iWid with
    | true =>
      rw [if_pos rfl, if_pos rfl]
      cases hb : w.beaten σ with
      | true =>
        rw [turns_beaten hb]
        exact iff_of_false (fun hc => nomatch hc) fun hc => nomatch hc.1
      | false =>
        rw [turns_act hb hact, List.cons_inj_right, ih]
        exact (and_iff_right rfl).symm
    | false =>
      rw [if_neg (by decide), if_neg (by decide), eq_comm, turns_eq_nil_iff (List.forall_mem_nil _),
        List.forall_mem_cons, hact]
      exact or_congr_right (and_iff_right rfl)

end Turns

/-- The warriors act in the turns they should take iff nobody acts after a camp is beaten, and the first warrior that is
dead or gone comes after all that could still act; if the sort raises, iff nobody could act at all. -/
theorem boutExecute_turns_iff (env : RoundEnv) (w : CWar) :
    Settles (w.nextTurn env) Exec.acts (w.startExec env) (w.expected env) ↔ w.SmoothRound env := by
  unfold SmoothRound
  cases h : env.sort (w.executeList env) with
  | error e =>
    obtain ⟨l, hstart⟩ := startExec_raised env w h
    rw [hstart, settles_of_none rfl]
    show [] = w.expected env ↔ _
    rw [eq_comm, expected, turns_eq_nil_iff (List.forall_mem_nil _)]
    exact or_congr_right (forall_congr' fun info => by rw [inOrder, List.mem_insertionSort])
  | ok l =>
    obtain ⟨hstart, hturn⟩ := startExec_sorted env w h
    rw [hstart, settles_iff_acted env w [] hturn]
    exact acted_eq_turns_iff _

/-! ## Two rounds -/

/-- A sort that compares each two entries. -/
def eachTwo : TableSort where
  sort l :=
    if l.Pairwise fun x y => x.iSpeed ≠ y.iSpeed then .ok (l.insertionSort fun x y => x.iSpeed ≤ y.iSpeed)
    else .error "attempt to call a nil value (method 'GetWid')"
  sorted l l' h := by
    split at h
    · rename_i hne
      cases h
      refine ⟨List.perm_insertionSort _ l, ?_⟩
      have hle := List.pairwise_insertionSort (fun x y : SpeedInfo => x.iSpeed ≤ y.iSpeed) l
      have hne' := ((List.perm_insertionSort (fun x y : SpeedInfo => x.iSpeed ≤ y.iSpeed) l).pairwise_iff
        fun h => Ne.symm h).2 hne
      exact hle.imp₂ (fun _ _ hxy hn => sortFunc_eq_true.2 (lt_of_le_of_ne hxy hn)) hne'
    · cases h
  again l h := by
    have hlt : l.Pairwise fun x y => x.iSpeed < y.iSpeed := h.imp sortFunc_eq_true.1
    rw [if_pos (hlt.imp ne_of_lt), (hlt.imp le_of_lt).insertionSort_eq]

/-- Actions without an effect; `GetSpeed` is 100. -/
def still : RoundEnv where
  act _ _ σ := σ
  random i _ := i
  toTableSort := eachTwo
  getSpeed _ _ := 100

/-- A war of two camps, whose warrior 3 is dead. -/
def camps (mBoutCmd : List (Wid × MCmd)) : CWar where
  mWarriors iWid := if iWid ∈ [1, 2, 3] then some ⟨.npc, if iWid = 3 then 0 else 50, false⟩ else none
  iAnimationTime := 100
  iWarId := 1
  lCamp1 := [1, 3]
  lCamp2 := [2]
  mPid2Wid := []
  iBout := 1
  iBoutOut := some 10
  iOperatorTime := 0
  mBoutCmd := mBoutCmd
  iWarStatus := none
  iWarResult := none
  bWarEnd := false

/-- The loop goes on for ever with the dead warrior. -/
theorem not_boutExecute_ends :
    ¬ Ends ((camps [(3, .normalAttack 2)]).nextTurn still) ((camps [(3, .normalAttack 2)]).startExec still) := by
  have hact : (camps [(3, .normalAttack 2)]).prepared.canAct (SpeedInfo.mk 3 100).iWid = false := rfl
  have hthere : (camps [(3, .normalAttack 2)]).prepared.getWarrior (SpeedInfo.mk 3 100).iWid = some ⟨.npc, 0, false⟩ :=
    rfl
  refine not_ends (stands still _ [] (List.pairwise_singleton _ ⟨3, 100⟩) hact fun hc => ?_) ⟨[], rfl⟩
  rw [hthere] at hc
  cases hc

/-- Two warriors of the same speed: nobody acts. -/
theorem not_boutExecute_turns :
    ¬ Settles ((camps [(1, .normalAttack 2), (2, .normalAttack 1)]).nextTurn still) Exec.acts
      ((camps [(1, .normalAttack 2), (2, .normalAttack 1)]).startExec still)
      ((camps [(1, .normalAttack 2), (2, .normalAttack 1)]).expected still) := by
  rw [settles_of_none rfl]
  decide

end CWar

end RoundGame.War
