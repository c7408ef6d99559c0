import Mathlib.Data.List.DropRight
import Mathlib.Data.List.Infix

/-!
# Texts read line by line

- `readlines t`: the lines of a text, each with the line feed that ends it. Lines that are put together are read back
  (`readlines_flatten_append`), and what is read before some line is made of ended lines (`ended_of_readlines`);
- texts that are joined by line feeds, as the lines they are (`intercalate_concat`, `flatten_intercalate`), and what a
  loop over blocks of lines does when an empty line is nothing to it (`foldlM_intercalate`);
- `matchPair sep cls l`: the match of `(\w+)`, a separator and a group of characters `cls` at the start of a line. It
  is there on a line written that way (`matchPair_written`), not on one that starts otherwise (`matchPair_other`), and
  its groups are parts of the line (`matchPair_infix`);
- a word that is part of a line is part of one of its words (`infix_append_cons_iff`).
-/

namespace Text

/-- `\w`. -/
def isWord (c : Char) : Bool := c.isAlphanum || c == '_'

def isSpace (c : Char) : Bool := c ∈ [' ', '\t', '\n', '\r', '\x0b', '\x0c']

def strip (l : List Char) : List Char := (l.dropWhile isSpace).rdropWhile isSpace

def readlines : List Char → List (List Char)
  | [] => []
  | c :: t =>
    if c = '\n' then [c] :: readlines t
    else
      match readlines t with
      | [] => [[c]]
      | l :: ls => (c :: l) :: ls

/-- The groups of `re.match(r"(\w+)" + sep + r"(" + cls + "+)", l)`. When `sep` does not start with a character of a
word, the first group is all of them at the start of `l`. -/
def matchPair (sep : List Char) (cls : Char → Bool) (l : List Char) : Option (List Char × List Char) :=
  let a := l.takeWhile isWord
  let rest := l.dropWhile isWord
  let b := (rest.drop sep.length).takeWhile cls
  if a ≠ [] ∧ sep <+: rest ∧ b ≠ [] then some (a, b) else none

/-! ## Lines -/

/-- A line with the line feed that ends it. -/
def Ended (l : List Char) : Prop := ∃ w, '\n' ∉ w ∧ l = w ++ ['\n']

variable {l t : List Char} {ls : List (List Char)}

theorem readlines_ended_append (h : Ended l) (t : List Char) : readlines (l ++ t) = l :: readlines t := by
  obtain ⟨w, hw, rfl⟩ := h
  induction w with
  | nil => rfl
  | cons c w ih =>
    rw [List.mem_cons, not_or] at hw
    have hc : c ≠ '\n' := fun h => hw.1 h.symm
    rw [List.cons_append, List.cons_append, readlines, if_neg hc, ih hw.2]

/-- Ended lines are read back, whatever comes after them. -/
theorem readlines_flatten_append (h : ∀ l ∈ ls, Ended l) (t : List Char) :
    readlines (ls.flatten ++ t) = ls ++ readlines t := by
  induction ls with
  | nil => rfl
  | cons l ls ih =>
    have hl : Ended l := h l List.mem_cons_self
    rw [List.flatten_cons, List.append_assoc, readlines_ended_append hl,
      ih fun l hl => h l (List.mem_cons_of_mem _ hl), List.cons_append]

@[simp] theorem flatten_readlines (t : List Char) : (readlines t).flatten = t := by
  induction t with
  | nil => rfl
  | cons c t ih =>
    rw [readlines]
    split
    · rw [List.flatten_cons, ih]
      rfl
    · split
      · rename_i hnil
        rw [hnil] at ih
        rw [← ih]
        rfl
      · rename_i l ls hcons
        rw [hcons] at ih
        rw [← ih]
        rfl

/-- The first line of a text is ended when there is another one. -/
theorem readlines_cons {ls : List (List Char)} (h : readlines t = l :: ls) :
    (Ended l ∨ ls = []) ∧ readlines ls.flatten = ls := by
  induction t generalizing l ls with
  | nil => cases h
  | cons c t ih =>
    rw [readlines] at h
    split at h
    · rename_i hc
      cases h
      exact ⟨Or.inl ⟨[], List.not_mem_nil, by rw [hc]; rfl⟩, by rw [flatten_readlines]⟩
    · rename_i hc
      split at h
      · cases h
        exact ⟨Or.inr rfl, rfl⟩
      · rename_i l' ls' hcons
        cases h
        obtain ⟨hended, hrest⟩ := ih hcons
        refine ⟨hended.imp_left ?_, hrest⟩
        rintro ⟨w, hw, rfl⟩
        refine ⟨c :: w, ?_, rfl⟩
        rw [List.mem_cons, not_or]
        exact ⟨fun h => hc h.symm, hw⟩

/-- The lines before some line of a text are ended, and the rest is the text from there on. -/
theorem ended_of_readlines {pre post : List (List Char)} (h : readlines t = pre ++ l :: post) :
    (∀ l ∈ pre, Ended l) ∧ readlines (l :: post).flatten = l :: post := by
  induction pre generalizing t with
  | nil =>
    refine ⟨fun l hl => absurd hl List.not_mem_nil, ?_⟩
    rw [List.nil_append] at h
    rw [← h, flatten_readlines]
  | cons a pre ih =>
    obtain ⟨hended, hrest⟩ := readlines_cons h
    obtain ⟨hpre, hpost⟩ := ih hrest
    refine ⟨fun b hb => ?_, hpost⟩
    rcases List.mem_cons.1 hb with rfl | hb
    · exact hended.resolve_right (by simp)
    · exact hpre b hb

/-! ## Lines put together -/

section Intercalate

variable {α : Type*}

theorem intercalate_cons_cons (sep a b : List α) (l : List (List α)) :
    sep.intercalate (a :: b :: l) = a ++ (sep ++ sep.intercalate (b :: l)) := rfl

theorem intercalate_singleton (sep a : List α) : sep.intercalate [a] = a := List.append_nil a

/-- Lines joined by a separator, with a last one. -/
theorem intercalate_concat (sep : List α) (ls : List (List α)) (last : List α) :
    sep.intercalate (ls ++ [last]) = (ls.map (· ++ sep)).flatten ++ last := by
  induction ls with
  | nil => exact intercalate_singleton sep last
  | cons a ls ih =>
    obtain ⟨b, l, hl⟩ : ∃ b l, ls ++ [last] = b :: l := by
      cases ls with
      | nil => exact ⟨last, [], rfl⟩
      | cons b ls => exact ⟨b, ls ++ [last], rfl⟩
    rw [List.cons_append, hl, intercalate_cons_cons, ← hl, ih, List.map_cons, List.flatten_cons, List.append_assoc,
      List.append_assoc]

theorem flatten_intercalate (sep : List α) (bl : List (List (List α))) :
    ([sep].intercalate bl).flatten = sep.intercalate (bl.map List.flatten) := by
  induction bl with
  | nil => rfl
  | cons a bl ih =>
    cases bl with
    | nil => rw [intercalate_singleton, List.map_singleton, intercalate_singleton]
    | cons b bl =>
      rw [intercalate_cons_cons, List.map_cons, List.map_cons, intercalate_cons_cons, List.flatten_append,
        List.flatten_append, ih, List.map_cons, List.flatten_singleton]

theorem mem_intercalate {sep a : α} {bl : List (List α)} (h : a ∈ [sep].intercalate bl) :
    a = sep ∨ ∃ l ∈ bl, a ∈ l := by
  induction bl with
  | nil => exact absurd h List.not_mem_nil
  | cons l bl ih =>
    cases bl with
    | nil =>
      rw [intercalate_singleton] at h
      exact Or.inr ⟨l, List.mem_cons_self, h⟩
    | cons b bl =>
      rw [intercalate_cons_cons, List.mem_append, List.mem_append, List.mem_singleton] at h
      rcases h with h | h | h
      · exact Or.inr ⟨l, List.mem_cons_self, h⟩
      · exact Or.inl h
      · exact (ih h).imp id fun ⟨l, hl, ha⟩ => ⟨l, List.mem_cons_of_mem _ hl, ha⟩

theorem subset_intercalate (sep : List α) {l : List α} {bl : List (List α)} (hl : l ∈ bl) : l ⊆ sep.intercalate bl := by
  induction bl with
  | nil => exact absurd hl List.not_mem_nil
  | cons b bl ih =>
    cases bl with
    | nil => rw [List.mem_singleton.1 hl, intercalate_singleton]; exact List.Subset.refl b
    | cons b' bl =>
      rw [intercalate_cons_cons]
      rcases List.mem_cons.1 hl with rfl | hl
      · exact List.subset_append_left l _
      · exact List.subset_append_of_subset_right _ (List.subset_append_of_subset_right _ (ih hl))

/-- A loop for which the separator is nothing. -/
theorem foldlM_intercalate {σ : Type*} {sep : α} {step : σ → α → Option σ} (hsep : ∀ s, step s sep = some s)
    (bl : List (List α)) (s : σ) : ([sep].intercalate bl).foldlM step s = bl.flatten.foldlM step s := by
  induction bl generalizing s with
  | nil => rfl
  | cons a bl ih =>
    cases bl with
    | nil => rw [intercalate_singleton, List.flatten_singleton]
    | cons b bl =>
      rw [intercalate_cons_cons, List.flatten_cons, List.foldlM_append, List.foldlM_append]
      congr 1
      funext t
      rw [List.singleton_append, List.foldlM_cons, hsep]
      exact ih t
end Intercalate

/-! ## Matches -/

section Match

variable {sep : List Char} {cls : Char → Bool} {a b rest : List Char}

theorem takeWhile_append_of {p : Char → Bool} (ha : a.all p) (hrest : rest.head?.any p = false) :
    (a ++ rest).takeWhile p = a ∧ (a ++ rest).dropWhile p = rest := by
  have hall : ∀ c ∈ a, p c := List.all_eq_true.1 ha
  rw [List.takeWhile_append_of_pos hall, List.dropWhile_append_of_pos hall]
  cases rest with
  | nil => simp
  | cons c rest =>
    have hc : p c = false := hrest
    simp [hc]

/-- A line that is written as the pattern says. -/
theorem matchPair_written {c : Char} (hc : isWord c = false) (ha : a ≠ []) (hwa : a.all isWord) (hb : b ≠ [])
    (hwb : b.all cls) (hrest : rest.head?.any cls = false) :
    matchPair (c :: sep) cls (a ++ c :: (sep ++ (b ++ rest))) = some (a, b) := by
  have hhead : (c :: (sep ++ (b ++ rest))).head?.any isWord = false := hc
  obtain ⟨htake, hdrop⟩ := takeWhile_append_of hwa hhead
  have hgroup := (takeWhile_append_of hwb hrest).1
  have hafter : (c :: (sep ++ (b ++ rest))).drop (c :: sep).length = b ++ rest := List.drop_left
  have hpre : c :: sep <+: c :: (sep ++ (b ++ rest)) := List.prefix_append (c :: sep) _
  simp only [matchPair, htake, hdrop, hafter, hgroup]
  rw [if_pos ⟨ha, hpre, hb⟩]

/-- A line whose first word is not followed by the separator. -/
theorem matchPair_other {c : Char} (hwa : a.all isWord) (hc : isWord c = false) (hsep : ¬ sep <+: c :: rest) :
    matchPair sep cls (a ++ c :: rest) = none := by
  have hhead : (c :: rest).head?.any isWord = false := hc
  obtain ⟨-, hdrop⟩ := takeWhile_append_of hwa hhead
  simp only [matchPair, hdrop]
  rw [if_neg fun h => hsep h.2.1]

theorem matchPair_eq_some (h : matchPair sep cls l = some (a, b)) : a <:+: l ∧ b <:+: l ∧ b ≠ [] ∧ b.all cls := by
  simp only [matchPair] at h
  split at h
  · rename_i hm
    cases h
    refine ⟨(List.takeWhile_prefix _).isInfix, ?_, hm.2.2, List.all_takeWhile⟩
    exact (List.takeWhile_prefix _).isInfix.trans
      ((List.drop_suffix _ _).isInfix.trans (List.dropWhile_suffix _).isInfix)
  · cases h

end Match

theorem strip_part (l : List Char) : strip l <:+: l :=
  (List.rdropWhile_prefix isSpace _).isInfix.trans (List.dropWhile_suffix _).isInfix

/-! ## Words of a line -/

/-- A word that does not have the character `c` is part of a text iff it is part of what stands on one side of `c`. -/
theorem infix_append_cons_iff {w a b : List Char} {c : Char} (hc : c ∉ w) :
    w <:+: a ++ c :: b ↔ w <:+: a ∨ w <:+: b := by
  constructor
  · rintro ⟨p, q, h⟩
    rw [List.append_assoc] at h
    rcases List.append_eq_append_iff.1 h with ⟨a', rfl, h'⟩ | ⟨c', rfl, h'⟩
    · rcases List.append_eq_append_iff.1 h' with ⟨x, rfl, -⟩ | ⟨x, rfl, hx⟩
      · exact Or.inl ⟨p, x, List.append_assoc p w x⟩
      · cases x with
        | nil => exact Or.inl ⟨p, [], by simp⟩
        | cons d x =>
          cases hx
          exact absurd (List.mem_append_right a' List.mem_cons_self) hc
    · cases c' with
      | nil =>
        cases w with
        | nil => exact Or.inl List.nil_infix
        | cons d w =>
          cases h'
          exact absurd List.mem_cons_self hc
      | cons d c' =>
        cases h'
        exact Or.inr ⟨c', q, List.append_assoc c' w q⟩
  · rintro (h | h)
    · exact h.trans (List.prefix_append a (c :: b)).isInfix
    · exact h.trans ((List.suffix_cons c b).trans (List.suffix_append a (c :: b))).isInfix

end Text
