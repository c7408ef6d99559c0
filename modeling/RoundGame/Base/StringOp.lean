import RoundGame.Lib.Loop
import RoundGame.Lib.Occur

/-!
# Splitting a string

`split` of `stringop.lua` looks for a separator from the index `b` on, again and again; `b` is then the index after the
match. With `plain` the separator is a text. Otherwise it is a pattern, and what `string.find` finds for a pattern is
the parameter `find`.

- In plain mode the loop ends and the result is the string cut at the occurrences of the separator
  (`split_plain_cut`).
- In pattern mode a match may be empty. One that is found at the very index where the search starts leaves `b` as it
  is: the loop ends iff there is no such match at any index it comes to (`split_pattern_ends_iff`).
-/

namespace RoundGame.Base

open Loop Occur

abbrev LuaStr := List UInt8

/-- `string.sub(s, i, j)`, neither of them negative. -/
def stringSub (s : LuaStr) (i j : Nat) : LuaStr := (s.take j).drop (i - 1)

/-- `string.find(s, sep, init, true)`. -/
def findPlain (s sep : LuaStr) (init : Nat) : Option (Nat × Nat) :=
  let b := max init 1
  if s.length + 1 < b then none
  else (first sep (s.drop (b - 1))).map fun i => (b + i, b + i + sep.length - 1)

/-- The locals of `split`; `done` is set by the `break`. -/
structure Scan where
  b : Nat
  res : List LuaStr
  done : Bool
deriving Repr, DecidableEq

/-- One turn of `while b <= #str`. -/
def Scan.turn (find : Nat → Option (Nat × Nat)) (str : LuaStr) (s : Scan) : Option Scan :=
  if s.done = true ∨ str.length < s.b then none
  else
    match find s.b with
    | some (e, e2) =>
      let b := e2 + 1
      let res := s.res ++ [stringSub str s.b (e - 1)]
      some ⟨b, if str.length < b then res ++ [[]] else res, false⟩
    | none => some ⟨s.b, s.res ++ [stringSub str s.b str.length], true⟩

/-- `"%s+"`. -/
def defaultSep : LuaStr := [37, 115, 43]

section Split

variable (find : LuaStr → LuaStr → Nat → Option (Nat × Nat))

/-- `string.find(s, sep, init, plain)`. -/
def stringFind (s sep : LuaStr) (plain : Bool) (init : Nat) : Option (Nat × Nat) :=
  if plain = true then findPlain s sep init else find s sep init

/-- `split(str, sep, plain)`, when its loop has no more than `fuel` turns. -/
def split (str : LuaStr) (sep : Option LuaStr) (plain : Bool) (fuel : Nat) : Option (List LuaStr) :=
  let sep := sep.getD defaultSep
  if sep = [] then some ((List.range str.length).map fun i => stringSub str (i + 1) (i + 1))
  else (run (Scan.turn (stringFind find str sep plain) str) fuel ⟨0, [], false⟩).map Scan.res

end Split

/-! ## A turn -/

section Turn

variable {find : Nat → Option (Nat × Nat)} {str : LuaStr} {b e e2 : Nat} {res : List LuaStr}

theorem turn_over (h : str.length < b) : Scan.turn find str ⟨b, res, false⟩ = none := if_pos (Or.inr h)

theorem turn_done : Scan.turn find str ⟨b, res, true⟩ = none := if_pos (Or.inl rfl)

theorem turn_none (hb : b ≤ str.length) (h : find b = none) (res : List LuaStr) :
    Scan.turn find str ⟨b, res, false⟩ = some ⟨b, res ++ [stringSub str b str.length], true⟩ := by
  rw [Scan.turn, if_neg (by simpa using hb), h]

theorem turn_some (hb : b ≤ str.length) (h : find b = some (e, e2)) (res : List LuaStr) :
    Scan.turn find str ⟨b, res, false⟩ = some ⟨e2 + 1,
      if str.length < e2 + 1 then res ++ [stringSub str b (e - 1)] ++ [[]] else res ++ [stringSub str b (e - 1)],
      false⟩ := by
  rw [Scan.turn, if_neg (by simpa using hb), h]

end Turn

/-! ## Plain mode -/

section Plain

variable {str sep : LuaStr} {b i : Nat} {res : List LuaStr}

theorem findPlain_eq (sep : LuaStr) (hb : b ≤ str.length) :
    findPlain str sep b = (first sep (str.drop (b - 1))).map fun i => (b - 1 + i + 1, b - 1 + i + sep.length) := by
  have hstart : max b 1 = b - 1 + 1 := by omega
  have hinit : ¬ str.length + 1 < b - 1 + 1 := by omega
  simp only [findPlain, hstart, if_neg hinit, Nat.add_sub_cancel]
  congr 1
  funext i
  rw [Prod.mk.injEq]
  omega

theorem stringSub_take (str : LuaStr) (b i : Nat) : stringSub str b (b - 1 + i) = (str.drop (b - 1)).take i := by
  rw [stringSub, List.drop_take, Nat.add_sub_cancel_left]

theorem stringSub_rest (str : LuaStr) (b : Nat) : stringSub str b str.length = str.drop (b - 1) := by
  rw [stringSub, List.take_length]

/-- From an index on, the loop adds the pieces of what is left of the string. -/
theorem run_plain (hsep : sep ≠ []) (hb : b ≤ str.length) (res : List LuaStr) :
    ∃ n s ps, run (Scan.turn (findPlain str sep) str) n ⟨b, res, false⟩ = some s ∧ s.res = res ++ ps ∧
      Cut sep (str.drop (b - 1)) ps := by
  -- the index moves on by at least one with each match
  induction hk : str.length - b using Nat.strongRecOn generalizing b res with
  | _ k ih =>
    have hfind := findPlain_eq sep hb
    cases hfirst : first sep (str.drop (b - 1)) with
    | none =>
      rw [hfirst, Option.map_none] at hfind
      refine ⟨1, ⟨b, res ++ [stringSub str b str.length], true⟩, [str.drop (b - 1)], ?_, ?_, Cut.last hfirst⟩
      · rw [run_succ (turn_none hb hfind res), run_of_none turn_done]
      · rw [stringSub_rest]
    | some i =>
      rw [hfirst, Option.map_some] at hfind
      have hpos : 0 < sep.length := List.length_pos_iff.2 hsep
      have hturn := turn_some hb hfind res
      rw [Nat.add_sub_cancel, stringSub_take] at hturn
      have hdrop : (str.drop (b - 1)).drop (i + sep.length) = str.drop (b - 1 + i + sep.length + 1 - 1) := by
        rw [List.drop_drop, Nat.add_sub_cancel, Nat.add_assoc]
      by_cases hend : str.length < b - 1 + i + sep.length + 1
      · -- the match is the end of the string
        rw [if_pos hend] at hturn
        have hlast : Cut sep ((str.drop (b - 1)).drop (i + sep.length)) [[]] := by
          rw [hdrop, Nat.add_sub_cancel, List.drop_eq_nil_of_le (Nat.le_of_lt_succ hend)]
          exact Cut.last (first_eq_none.2 fun h => hsep (List.infix_nil.1 h))
        exact ⟨1, _, [(str.drop (b - 1)).take i, []], by rw [run_succ hturn, run_of_none (turn_over hend)],
          List.append_assoc _ _ _, Cut.cons hfirst hlast⟩
      · rw [if_neg hend] at hturn
        obtain ⟨n, s, ps, hrun, hres, hcut⟩ := ih _ (by omega) (Nat.le_of_not_lt hend)
          (res ++ [(str.drop (b - 1)).take i]) rfl
        refine ⟨n + 1, s, (str.drop (b - 1)).take i :: ps, by rw [run_succ hturn, hrun], ?_, Cut.cons hfirst ?_⟩
        · rw [hres, List.append_assoc, List.singleton_append]
        · rwa [hdrop]

/-- In plain mode the string is cut at the occurrences of the separator. -/
theorem split_plain_cut (find : LuaStr → LuaStr → Nat → Option (Nat × Nat)) (hsep : sep ≠ []) :
    ∃ pieces, (∃ n, ∀ fuel, n ≤ fuel → split find str (some sep) true fuel = some pieces) ∧
      Cut sep str pieces := by
  obtain ⟨n, s, ps, hrun, hres, hcut⟩ := run_plain hsep (Nat.zero_le str.length) []
  refine ⟨ps, ⟨n, fun fuel hfuel => ?_⟩, hcut⟩
  have hplain : stringFind find str sep true = findPlain str sep := rfl
  rw [split, Option.getD_some, if_neg hsep, hplain, run_le hrun hfuel, Option.map_some, hres, List.nil_append]

theorem split_plain_inverse (find : LuaStr → LuaStr → Nat → Option (Nat × Nat)) (str : LuaStr) (hsep : sep ≠ []) :
    ∃ pieces, (∃ n, ∀ fuel, n ≤ fuel → split find str (some sep) true fuel = some pieces) ∧
      sep.intercalate pieces = str ∧ (∀ p ∈ pieces, ¬ sep <:+: p) ∧ pieces.length = count sep str + 1 := by
  obtain ⟨pieces, hsplit, hcut⟩ := split_plain_cut find hsep
  exact ⟨pieces, hsplit, hcut.intercalate_eq, hcut.free hsep, hcut.length_eq hsep⟩

/-- `split("aaa", "aa", true)`. -/
theorem split_plain_inverse_aaa :
    ∃ pieces, (∃ n, ∀ fuel, n ≤ fuel → split (fun _ _ _ => none) [97, 97, 97] (some [97, 97]) true fuel = some pieces) ∧
      [97, 97].intercalate pieces = [97, 97, 97] ∧ (∀ p ∈ pieces, ¬ [97, 97] <:+: p) ∧
      pieces.length = count [97, 97] ([97, 97, 97] : LuaStr) + 1 :=
  split_plain_inverse (fun _ _ _ => none) [97, 97, 97] (List.cons_ne_nil 97 [97])

end Plain

/-! ## Pattern mode -/

/-- What `string.find` promises of a match: it starts at the index given or later, and it may be empty. -/
def IsMatcher (find : Nat → Option (Nat × Nat)) : Prop :=
  ∀ b e e2, find b = some (e, e2) → max b 1 ≤ e ∧ e ≤ e2 + 1

/-- The indices at which a match is looked for: `0`, and behind each match found within the string. -/
inductive Tried (find : Nat → Option (Nat × Nat)) (str : LuaStr) : Nat → Prop
  | zero : Tried find str 0
  | next {b e e2 : Nat} : Tried find str b → b ≤ str.length → find b = some (e, e2) → Tried find str (e2 + 1)

section Pattern

variable {find : Nat → Option (Nat × Nat)} {str : LuaStr} {b : Nat} {res : List LuaStr}

/-- The loop comes to every index at which a match is looked for. -/
theorem tried_ends (h : Tried find str b) :
    ∃ res, Ends (Scan.turn find str) ⟨0, [], false⟩ ↔ Ends (Scan.turn find str) ⟨b, res, false⟩ := by
  induction h with
  | zero => exact ⟨[], Iff.rfl⟩
  | next _ hb hfind ih =>
    obtain ⟨res, hres⟩ := ih
    exact ⟨_, hres.trans (ends_iff (turn_some hb hfind res))⟩

/-- An empty match at the index itself is found again and again. -/
theorem not_ends_of_stuck (hb : b ≤ str.length) (hpos : 1 ≤ b) (h : find b = some (b, b - 1)) (res : List LuaStr) :
    ¬ Ends (Scan.turn find str) ⟨b, res, false⟩ := by
  refine not_ends (I := fun s => s.b = b ∧ s.done = false) ?_ ⟨rfl, rfl⟩
  rintro ⟨b', res', done⟩ ⟨rfl, rfl⟩
  exact ⟨_, turn_some hb h res', Nat.sub_add_cancel hpos, rfl⟩

/-- The loop ends when each match moves the index on. -/
theorem ends_of_moving (hfind : IsMatcher find)
    (hmove : ∀ b, Tried find str b → b ≤ str.length → 1 ≤ b → find b ≠ some (b, b - 1)) (h : Tried find str b)
    (res : List LuaStr) : Ends (Scan.turn find str) ⟨b, res, false⟩ := by
  induction hk : str.length + 1 - b using Nat.strongRecOn generalizing b res with
  | _ k ih =>
    rcases Nat.lt_or_ge str.length b with hb | hb
    · exact ends_of_none (turn_over hb)
    · cases hat : find b with
      | none =>
        rw [ends_iff (turn_none hb hat res)]
        exact ends_of_none turn_done
      | some m =>
        obtain ⟨e, e2⟩ := m
        obtain ⟨hstart, hlen⟩ := hfind b e e2 hat
        have hlt : b < e2 + 1 := by
          refine Nat.lt_of_le_of_ne (by omega) fun heq => ?_
          refine hmove b h hb (by omega) ?_
          rw [hat, Option.some.injEq, Prod.mk.injEq]
          omega
        rw [ends_iff (turn_some hb hat res)]
        exact ih _ (by omega) (h.next hb hat) _ rfl

end Pattern

theorem split_isSome {find : LuaStr → LuaStr → Nat → Option (Nat × Nat)} {str sep : LuaStr} {plain : Bool}
    (hsep : sep ≠ []) : (∃ fuel, (split find str (some sep) plain fuel).isSome) ↔
      Ends (Scan.turn (stringFind find str sep plain) str) ⟨0, [], false⟩ := by
  rw [ends_iff_run]
  refine exists_congr fun fuel => ?_
  rw [split, Option.getD_some, if_neg hsep, Option.isSome_map]

/-- In pattern mode the loop ends iff no match is empty and right where its search starts, behind the last match. -/
theorem split_pattern_ends_iff (find : LuaStr → LuaStr → Nat → Option (Nat × Nat)) {str sep : LuaStr} (hsep : sep ≠ [])
    (hfind : IsMatcher (find str sep)) :
    (∃ fuel, (split find str (some sep) false fuel).isSome) ↔
      ∀ b, Tried (find str sep) str b → b ≤ str.length → 1 ≤ b → find str sep b ≠ some (b, b - 1) := by
  rw [split_isSome hsep]
  constructor
  · intro hends b htried hb hpos hat
    obtain ⟨res, hres⟩ := tried_ends htried
    exact not_ends_of_stuck hb hpos hat res (hres.1 hends)
  · exact fun hmove => ends_of_moving hfind hmove Tried.zero []

/-- A separator that is matched by texts that are not empty only. -/
theorem findPlain_isMatcher {str sep : LuaStr} (hsep : sep ≠ []) :
    IsMatcher (findPlain str sep) ∧ ∀ b, 1 ≤ b → findPlain str sep b ≠ some (b, b - 1) := by
  have hpos : 0 < sep.length := List.length_pos_iff.2 hsep
  refine ⟨fun b e e2 h => ?_, fun b hb h => ?_⟩ <;>
  · simp only [findPlain] at h
    split at h
    · cases h
    · obtain ⟨i, -, hi⟩ := Option.map_eq_some_iff.1 h
      rw [Prod.mk.injEq] at hi
      omega

/-- `split("a b", " ")`. -/
theorem split_pattern_ends_iff_space :
    (∃ fuel, (split findPlain [97, 32, 98] (some [32]) false fuel).isSome) ↔
      ∀ b, Tried (findPlain [97, 32, 98] [32]) [97, 32, 98] b → b ≤ 3 → 1 ≤ b →
        findPlain [97, 32, 98] [32] b ≠ some (b, b - 1) :=
  split_pattern_ends_iff findPlain (List.cons_ne_nil 32 []) (findPlain_isMatcher (List.cons_ne_nil 32 [])).1

/-- What is found for the pattern `"x*"` in a string without an `x`: the empty text at the start of the search. -/
def findEmpty (s _sep : LuaStr) (init : Nat) : Option (Nat × Nat) :=
  let b := max init 1
  if s.length + 1 < b then none else some (b, b - 1)

/-- `split("abc", "x*")`. -/
theorem split_pattern_not_ends :
    ¬ ∀ (find : LuaStr → LuaStr → Nat → Option (Nat × Nat)) (str sep : LuaStr), sep ≠ [] →
      IsMatcher (find str sep) → ∃ fuel, (split find str (some sep) false fuel).isSome := by
  intro h
  have hsep : ([120, 42] : LuaStr) ≠ [] := List.cons_ne_nil 120 [42]
  have hfind : IsMatcher (findEmpty [97, 98, 99] [120, 42]) := by
    intro b e e2 hat
    simp only [findEmpty] at hat
    split at hat
    · cases hat
    · rw [Option.some.injEq, Prod.mk.injEq] at hat
      omega
  have hends := (split_isSome hsep).1 (h findEmpty [97, 98, 99] [120, 42] hsep hfind)
  have hfirst : findEmpty [97, 98, 99] [120, 42] 0 = some (1, 0) := rfl
  have htried : Tried (findEmpty [97, 98, 99] [120, 42]) [97, 98, 99] 1 := Tried.zero.next (by decide) hfirst
  obtain ⟨res, hres⟩ := tried_ends htried
  exact not_ends_of_stuck (by decide) (by decide) (by decide) res (hres.1 hends)

end RoundGame.Base
