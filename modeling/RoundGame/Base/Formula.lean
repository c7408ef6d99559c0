import Mathlib.Data.List.Induction
import Mathlib.Logic.Function.Basic

/-!
# Formulas

`formula_string` of `stringop.lua` evaluates a formula over the variables of an environment table. It loads the text
once and keeps the function in the table `fm`; the function keeps the variables it was loaded with, among them the
environment table of the first call.

Lua itself is the parameter `L`: what a text computes from its variables. The tables given as environments are named
by references, since the kept function reads the table of the first call again.

Every call has the value of its formula in its own environment iff each repeated formula has the same value over the
variables kept for it (`results_eq_iff`). When the tables are not written to between the calls, any two calls with the
same text must have the same value (`results_eq_iff_pairwise`).
-/

namespace RoundGame.Base

open Function

variable {α : Type}

/-- What a formula finds under a name. -/
inductive EnvVal (α : Type)
  | tbl (r : Nat)
  | math
  | pairs
  | other (a : α)

/-- Variables; a table with strings as keys. -/
abbrev Vars (α : Type) := String → Option (EnvVal α)

/-- What the tables hold when a call is made. -/
abbrev Tables (α : Type) := Nat → Vars α

/-- What the loaded texts do. -/
structure Meaning (α : Type) where
  /-- The value of a formula, `none` when the text does not compile. -/
  load : String → Option (Vars α → Tables α → Except String (EnvVal α))
  /-- What a loop `for k, v in p(e)` assigns, for a `p` other than `pairs` or an `e` that is no table. -/
  loop : Option (EnvVal α) → Option (EnvVal α) → Tables α → Except String (Vars α)

/-- One set of variables over another. -/
def overlay (f g : Vars α) : Vars α := fun k => (f k).or (g k)

/-! ## `formula_string` -/

section Code

variable (L : Meaning α)

/-- `{env=env, math=math, pairs=pairs}`. -/
def newEnv (env : Nat) : Vars α
  | "env" => some (.tbl env)
  | "math" => some .math
  | "pairs" => some .pairs
  | _ => none

/-- `for k, v in pairs(env) do _ENV[k] = v end`. -/
def copyEnv (tables : Tables α) (_ENV : Vars α) : Except String (Vars α) :=
  match _ENV "pairs", _ENV "env" with
  | some .pairs, some (.tbl env) => .ok (overlay (tables env) _ENV)
  | p, e => (L.loop p e tables).map fun assigned => overlay assigned _ENV

/-- A loaded formula with the variables it keeps. -/
structure Closure (α : Type) where
  code : Vars α → Tables α → Except String (EnvVal α)
  _ENV : Vars α

/-- A call of a loaded formula. -/
def Closure.call (tables : Tables α) (f : Closure α) : Except String (EnvVal α) × Closure α :=
  match copyEnv L tables f._ENV with
  | .error e => (.error e, f)
  | .ok _ENV => (f.code _ENV tables, { f with _ENV := _ENV })

/-- The table `fm`. -/
abbrev Fm (α : Type) := String → Option (Closure α)

/-- `return fm[msg]()`, and what it leaves in `fm`. -/
def callKept (fm : Fm α) (msg : String) (tables : Tables α) : Except String (EnvVal α) × Fm α :=
  match fm msg with
  | none => (.error "attempt to call a nil value (field '?')", fm)
  | some f => ((f.call L tables).1, update fm msg (some (f.call L tables).2))

/-- `formula_string`. -/
def formulaString (fm : Fm α) (msg : String) (env : Nat) (tables : Tables α) : Except String (EnvVal α) × Fm α :=
  if (fm msg).isSome then callKept L fm msg tables
  else
    callKept L (update fm msg ((L.load msg).map fun code => { code := code, _ENV := newEnv env })) msg tables

end Code

/-! ## Runs -/

/-- A call of `formula_string`, and what the tables hold then. -/
structure Call (α : Type) where
  msg : String
  env : Nat
  tables : Tables α

section Runs

variable (L : Meaning α)

/-- What the calls return, one after the other. -/
def results : Fm α → List (Call α) → List (Except String (EnvVal α))
  | _, [] => []
  | fm, c :: calls =>
    (formulaString L fm c.msg c.env c.tables).1 :: results (formulaString L fm c.msg c.env c.tables).2 calls

/-- The value of a formula, started with some variables. -/
def valueFrom (msg : String) (_ENV : Vars α) (tables : Tables α) : Except String (EnvVal α) :=
  match L.load msg with
  | none => .error "attempt to call a nil value (field '?')"
  | some code => (({ code := code, _ENV := _ENV } : Closure α).call L tables).1

/-- The value of a formula in its own environment, `math` and `pairs`. -/
def Call.value (c : Call α) : Except String (EnvVal α) :=
  match L.load c.msg with
  | none => .error "attempt to call a nil value (field '?')"
  | some code => code (overlay (c.tables c.env) (newEnv c.env)) c.tables

/-- The variables after one more call. -/
def varsAfter (_ENV : Vars α) (c : Call α) : Vars α := (copyEnv L c.tables _ENV).toOption.getD _ENV

/-- The variables kept for a formula after some calls with its text: those of the first call, and what its table held
at each of them. -/
def keptVars : List (Call α) → Option (Vars α)
  | [] => none
  | first :: calls => some ((first :: calls).foldl (varsAfter L) (newEnv first.env))

end Runs

/-! ## What is kept -/

section Kept

variable {L : Meaning α}

theorem call_snd (f : Closure α) (c : Call α) :
    (f.call L c.tables).2 = { code := f.code, _ENV := varsAfter L f._ENV c } := by
  unfold Closure.call varsAfter
  cases copyEnv L c.tables f._ENV <;> rfl

theorem call_fst {f : Closure α} {tables : Tables α} {_ENV : Vars α} (h : copyEnv L tables f._ENV = .ok _ENV) :
    (f.call L tables).1 = f.code _ENV tables := by
  unfold Closure.call
  rw [h]

/-- Evaluated for the first time, a formula sees its own environment. -/
theorem value_eq (c : Call α) : c.value L = valueFrom L c.msg (newEnv c.env) c.tables := by
  unfold Call.value valueFrom
  cases L.load c.msg <;> rfl

theorem keptVars_concat (l : List (Call α)) (c : Call α) :
    keptVars L (l ++ [c]) = some (varsAfter L ((keptVars L l).getD (newEnv c.env)) c) := by
  cases l with
  | nil => rfl
  | cons first l => simp [keptVars]

/-- The calls with a text, among some calls. -/
def callsOf (msg : String) (calls : List (Call α)) : List (Call α) := calls.filter fun c => c.msg = msg

theorem mem_callsOf {msg : String} {calls : List (Call α)} {c : Call α} :
    c ∈ callsOf msg calls ↔ c ∈ calls ∧ c.msg = msg := by simp [callsOf]

theorem callsOf_concat_self (calls : List (Call α)) (c : Call α) :
    callsOf c.msg (calls ++ [c]) = callsOf c.msg calls ++ [c] := by
  simp [callsOf]

theorem callsOf_concat_ne {msg : String} (calls : List (Call α)) {c : Call α} (h : msg ≠ c.msg) :
    callsOf msg (calls ++ [c]) = callsOf msg calls := by
  simp [callsOf, h.symm]

/-- The table `fm` after some calls. -/
def Keeps (L : Meaning α) (past : List (Call α)) (fm : Fm α) : Prop :=
  ∀ msg, fm msg = (L.load msg).bind fun code =>
    (keptVars L (callsOf msg past)).map fun _ENV => { code := code, _ENV := _ENV }

theorem keeps_nil : Keeps L [] fun _ => none := fun msg => by cases h : L.load msg <;> rfl

theorem callKept_some {fm : Fm α} {msg : String} {f : Closure α} (h : fm msg = some f) (tables : Tables α) :
    callKept L fm msg tables = ((f.call L tables).1, update fm msg (some (f.call L tables).2)) := by
  unfold callKept
  rw [h]

/-- With its formula loaded, a call finds it with the variables kept for it, or with its own environment. -/
theorem formulaString_eq {past : List (Call α)} {fm : Fm α} (h : Keeps L past fm) (c : Call α)
    {code : Vars α → Tables α → Except String (EnvVal α)} (hload : L.load c.msg = some code) :
    ∃ fm', fm' c.msg = some ⟨code, (keptVars L (callsOf c.msg past)).getD (newEnv c.env)⟩ ∧
      (∀ msg, msg ≠ c.msg → fm' msg = fm msg) ∧
      formulaString L fm c.msg c.env c.tables = callKept L fm' c.msg c.tables := by
  have hmsg := h c.msg
  rw [hload, Option.bind_some] at hmsg
  unfold formulaString
  cases hkept : keptVars L (callsOf c.msg past) with
  | none =>
    rw [hkept, Option.map_none] at hmsg
    refine ⟨update fm c.msg (some ⟨code, newEnv c.env⟩), update_self _ _ _, ?_, ?_⟩
    · exact fun msg hne => update_of_ne hne _ _
    · rw [hmsg, hload]
      rfl
  | some vars =>
    rw [hkept, Option.map_some] at hmsg
    refine ⟨fm, hmsg, fun _ _ => rfl, ?_⟩
    rw [hmsg]
    rfl

/-- A call evaluates its formula over the variables kept for it, over its own environment when there are none. -/
theorem formulaString_spec {past : List (Call α)} {fm : Fm α} (h : Keeps L past fm) (c : Call α) :
    (formulaString L fm c.msg c.env c.tables).1 =
        valueFrom L c.msg ((keptVars L (callsOf c.msg past)).getD (newEnv c.env)) c.tables ∧
      Keeps L (past ++ [c]) (formulaString L fm c.msg c.env c.tables).2 := by
  cases hload : L.load c.msg with
  | none =>
    -- the text does not compile, now as before
    have hmsg : fm c.msg = none := by rw [h, hload]; rfl
    have hcall : formulaString L fm c.msg c.env c.tables =
        (.error "attempt to call a nil value (field '?')", update fm c.msg none) := by
      simp [formulaString, callKept, hmsg, hload]
    rw [hcall]
    refine ⟨by rw [valueFrom, hload], ?_⟩
    show Keeps L (past ++ [c]) (update fm c.msg none)
    intro msg
    by_cases hne : msg = c.msg
    · subst hne
      rw [update_self, hload]
      rfl
    · rw [update_of_ne hne, h, callsOf_concat_ne past hne]
  | some code =>
    obtain ⟨fm', hself, hother, hcall⟩ := formulaString_eq h c hload
    rw [hcall, callKept_some hself]
    refine ⟨by rw [valueFrom, hload], ?_⟩
    show Keeps L (past ++ [c]) (update fm' c.msg (some _))
    intro msg
    by_cases hne : msg = c.msg
    · subst hne
      rw [update_self, call_snd, hload, callsOf_concat_self, keptVars_concat]
      rfl
    · rw [update_of_ne hne, hother msg hne, h, callsOf_concat_ne past hne]

/-- The calls after some others return the values of their formulas iff each repeated formula has the same value over
the variables kept for it. -/
theorem results_eq_iff_of_keeps {past : List (Call α)} {fm : Fm α} (h : Keeps L past fm) :
    ∀ calls : List (Call α), results L fm calls = calls.map (Call.value L) ↔
      ∀ mid c rest, calls = mid ++ c :: rest → ∀ vars ∈ keptVars L (callsOf c.msg (past ++ mid)),
        valueFrom L c.msg vars c.tables = c.value L := by
  intro calls
  induction calls generalizing past fm with
  | nil => simp [results]
  | cons c calls ih =>
    obtain ⟨hval, hnext⟩ := formulaString_spec h c
    have hfirst : (formulaString L fm c.msg c.env c.tables).1 = c.value L ↔
        ∀ vars ∈ keptVars L (callsOf c.msg past), valueFrom L c.msg vars c.tables = c.value L := by
      rw [hval]
      cases keptVars L (callsOf c.msg past) with
      | none => simp [value_eq]
      | some vars => simp
    rw [results, List.map_cons, List.cons.injEq, ih hnext, hfirst]
    constructor
    · rintro ⟨hc, hrest⟩ mid c' rest heq
      cases mid with
      | nil =>
        cases heq
        rwa [List.append_nil]
      | cons d mid =>
        cases heq
        have hmid := hrest mid c' rest rfl
        rwa [List.append_assoc] at hmid
    · intro hall
      refine ⟨?_, fun mid c' rest heq => ?_⟩
      · have hc := hall [] c calls rfl
        rwa [List.append_nil] at hc
      · have hmid := hall (c :: mid) c' rest (by rw [heq]; rfl)
        rwa [List.append_assoc]

/-! ## Tables that stay as they are -/

/-- No environment hides the variables `env` and `pairs`. -/
def Plain (tables : Tables α) : Prop := ∀ r, tables r "env" = none ∧ tables r "pairs" = none

theorem overlay_overlay (f g : Vars α) : overlay f (overlay f g) = overlay f g := by
  funext k
  unfold overlay
  cases f k <;> rfl

theorem copyEnv_newEnv (tables : Tables α) (env : Nat) :
    copyEnv L tables (newEnv env) = .ok (overlay (tables env) (newEnv env)) := rfl

/-- A second copy of the same table changes nothing. -/
theorem copyEnv_overlay {tables : Tables α} (h : Plain tables) (env : Nat) :
    copyEnv L tables (overlay (tables env) (newEnv env)) = .ok (overlay (tables env) (newEnv env)) := by
  have henv : overlay (tables env) (newEnv env) "env" = some (.tbl env) := by
    show (tables env "env").or _ = _
    rw [(h env).1]
    rfl
  have hpairs : overlay (tables env) (newEnv env) "pairs" = some .pairs := by
    show (tables env "pairs").or _ = _
    rw [(h env).2]
    rfl
  unfold copyEnv
  rw [hpairs, henv]
  exact congrArg Except.ok (overlay_overlay _ _)

/-- The variables kept for a formula are those of its first call. -/
theorem keptVars_plain {tables : Tables α} (h : Plain tables) {first : Call α} {l : List (Call α)}
    (hl : ∀ c ∈ first :: l, c.tables = tables) :
    keptVars L (first :: l) = some (overlay (tables first.env) (newEnv first.env)) := by
  have hfirst : varsAfter L (newEnv first.env) first = overlay (tables first.env) (newEnv first.env) := by
    unfold varsAfter
    rw [copyEnv_newEnv, hl first List.mem_cons_self]
    rfl
  have hrest : ∀ l : List (Call α), (∀ c ∈ l, c.tables = tables) →
      l.foldl (varsAfter L) (overlay (tables first.env) (newEnv first.env)) =
        overlay (tables first.env) (newEnv first.env) := by
    intro l
    induction l with
    | nil => exact fun _ => rfl
    | cons c l ih =>
      intro hl
      rw [List.foldl_cons, varsAfter, hl c List.mem_cons_self, copyEnv_overlay h]
      exact ih fun d hd => hl d (List.mem_cons_of_mem _ hd)
  rw [keptVars, List.foldl_cons, hfirst, hrest l fun c hc => hl c (List.mem_cons_of_mem _ hc)]

/-- A repeated formula has the value of its first call. -/
theorem valueFrom_plain {tables : Tables α} (h : Plain tables) {first c : Call α} (hf : first.tables = tables)
    (hc : c.tables = tables) (hmsg : first.msg = c.msg) :
    valueFrom L c.msg (overlay (tables first.env) (newEnv first.env)) c.tables = first.value L := by
  unfold valueFrom Call.value
  rw [hc, hf, hmsg]
  cases L.load c.msg with
  | none => rfl
  | some code => exact call_fst (copyEnv_overlay h first.env)

/-- A statement about every call and the calls before it, for one more call. -/
theorem forall_split_concat {P : List (Call α) → Call α → Prop} (calls : List (Call α)) (d : Call α) :
    (∀ past c rest, calls ++ [d] = past ++ c :: rest → P past c) ↔
      (∀ past c rest, calls = past ++ c :: rest → P past c) ∧ P calls d := by
  constructor
  · refine fun h => ⟨fun past c rest heq => h past c (rest ++ [d]) ?_, h calls d [] rfl⟩
    rw [heq, List.append_assoc, List.cons_append]
  · rintro ⟨h, hd⟩ past c rest heq
    rcases List.eq_nil_or_concat rest with rfl | ⟨rest, x, rfl⟩
    · obtain ⟨rfl, hcd⟩ := List.append_inj' heq rfl
      cases hcd
      exact hd
    · rw [List.concat_eq_append, ← List.cons_append, ← List.append_assoc] at heq
      exact h past c rest (List.append_inj' heq rfl).1

/-- A call has its own value iff the first call with its text has that value. -/
theorem valueFrom_kept_iff {tables : Tables α} (h : Plain tables) {calls : List (Call α)}
    (hcalls : ∀ c ∈ calls, c.tables = tables) {d : Call α} (hd : d.tables = tables) :
    (∀ vars ∈ keptVars L (callsOf d.msg calls), valueFrom L d.msg vars d.tables = d.value L) ↔
      ∀ first ∈ (callsOf d.msg calls).head?, first.value L = d.value L := by
  cases hof : callsOf d.msg calls with
  | nil => simp [keptVars]
  | cons first l =>
    have hmem : ∀ c ∈ first :: l, c ∈ calls ∧ c.msg = d.msg := fun c hc => mem_callsOf.1 (hof ▸ hc)
    have hfirst := hmem first List.mem_cons_self
    rw [keptVars_plain h fun c hc => hcalls c (hmem c hc).1]
    simp [valueFrom_plain h (hcalls first hfirst.1) hd hfirst.2]

/-- When calls with the same text have the same value, the first call with a text stands for all of them. -/
theorem head_callsOf_iff {calls : List (Call α)}
    (hp : calls.Pairwise fun c d => c.msg = d.msg → c.value L = d.value L) (msg : String)
    (v : Except String (EnvVal α)) :
    (∀ first ∈ (callsOf msg calls).head?, first.value L = v) ↔ ∀ c ∈ calls, c.msg = msg → c.value L = v := by
  have hfilter : (callsOf msg calls).Pairwise fun c d => c.msg = d.msg → c.value L = d.value L :=
    hp.filter fun c : Call α => decide (c.msg = msg)
  constructor
  · intro hhead c hc hmsg
    have hmem : c ∈ callsOf msg calls := mem_callsOf.2 ⟨hc, hmsg⟩
    revert hhead hmem hfilter
    cases hl : callsOf msg calls with
    | nil => intro _ _ hmem; cases hmem
    | cons first l =>
      intro hfilter hhead hmem
      have hfirst : first.value L = v := hhead first rfl
      rcases List.mem_cons.1 hmem with rfl | hin
      · exact hfirst
      · have hfm : first.msg = msg := (mem_callsOf.1 (hl ▸ List.mem_cons_self)).2
        exact (List.rel_of_pairwise_cons hfilter hin (hfm.trans hmsg.symm)).symm.trans hfirst
  · intro hall first hfirst
    have hmem := mem_callsOf.1 (List.mem_of_mem_head? hfirst)
    exact hall first hmem.1 hmem.2

/-- With tables that are not written to between the calls and hide neither `env` nor `pairs`, every call returns the
value of its formula in its own environment iff any two calls with the same text have the same value. -/
theorem results_eq_iff_pairwise {tables : Tables α} (h : Plain tables) (calls : List (Call α))
    (hcalls : ∀ c ∈ calls, c.tables = tables) :
    results L (fun _ => none) calls = calls.map (Call.value L) ↔
      calls.Pairwise fun c d => c.msg = d.msg → c.value L = d.value L := by
  rw [results_eq_iff_of_keeps keeps_nil]
  simp only [List.nil_append]
  induction calls using List.reverseRecOn with
  | nil => simp
  | append_singleton calls d ih =>
    have hold : ∀ c ∈ calls, c.tables = tables := fun c hc => hcalls c (List.mem_append_left _ hc)
    have hd : d.tables = tables := hcalls d (List.mem_append_right _ (List.mem_singleton_self d))
    rw [forall_split_concat, ih hold, List.pairwise_append, valueFrom_kept_iff h hold hd]
    simp only [List.pairwise_singleton, List.mem_singleton, forall_eq, true_and]
    exact and_congr_right fun hp => head_callsOf_iff hp d.msg (d.value L)

/-! ## The result -/

/-- Every call returns the value of its formula in its own environment iff each repeated formula has the same value
over the variables kept for it. -/
theorem results_eq_iff (L : Meaning α) (calls : List (Call α)) :
    results L (fun _ => none) calls = calls.map (Call.value L) ↔
      ∀ past c rest, calls = past ++ c :: rest → ∀ vars ∈ keptVars L (callsOf c.msg past),
        valueFrom L c.msg vars c.tables = c.value L :=
  results_eq_iff_of_keeps keeps_nil calls

end Kept

/-! ## One formula, two levels -/

/-- The formula `100*lv`. -/
def hundredLv : Meaning Nat where
  load
    | "100*lv" => some fun _ENV _ =>
      match _ENV "lv" with
      | some (.other lv) => .ok (.other (100 * lv))
      | _ => .error "attempt to perform arithmetic on a nil value (global 'lv')"
    | _ => none
  loop _ _ _ := .error "bad argument #1 to 'pairs' (table expected, got nil)"

/-- The tables `{lv = 1}` and `{lv = 2}`. -/
def levels : Tables Nat
  | r, "lv" => some (.other (r + 1))
  | _, _ => none

def twoLevels : List (Call Nat) := [⟨"100*lv", 0, levels⟩, ⟨"100*lv", 1, levels⟩]

/-- At level 2 the formula has the value of level 1. -/
theorem not_transparent : results hundredLv (fun _ => none) twoLevels ≠ twoLevels.map (Call.value hundredLv) := by
  have hcached : results hundredLv (fun _ => none) twoLevels = [.ok (.other 100), .ok (.other 100)] := rfl
  have hvalues : twoLevels.map (Call.value hundredLv) = [.ok (.other 100), .ok (.other 200)] := rfl
  rw [hcached, hvalues]
  intro h
  injection h with _ h
  injection h with h
  injection h with h
  injection h with h
  exact absurd h (by decide)

end RoundGame.Base
