import RoundGame.Shell.Regenerate

/-!
# A section of `netdefines.lua` written anew

The file has a section for each direction, and the readers look for the texts of their markers in every line. A message
`C2GSStartGame` makes its line a marker line, and is not read back.

A numbering is read back exactly when every module has a number and no name has a text of the direction's own markers in
it (`section_iff`). The other direction is read as before when its section comes first (`other_second`), or no name has
a text of its markers in it (`other_first`); with such a name there is a file whose other section is lost
(`clear_other`). So `regenerated_iff` says which numberings are written safely. A run of the script keeps the numbers in
the file when there is room for the new ones (`processProto_kept`).
-/

namespace RoundGame.Shell

open Text

/-! ## Lines that the reader passes -/

section Pass

variable {mark : Mark} {d : TmpDict} {ls rest post : List Str} {first last : Str} {r r' : Reader}

theorem start_line {define l : Str} (h : r.line define l = some r') : r'.start = r.start := by
  rcases Reader.line_cases h with ⟨-, rfl⟩ | ⟨mod, -, rfl⟩ | ⟨mod, t, pro, val, -, -, -, rfl⟩
  · rfl
  · rfl
  · rfl

theorem readSection_before (h : ∀ l ∈ ls, d.isStart l = false ∧ d.isEnd l = false) (hr : r.start = false)
    (rest : List Str) : readSection d (ls ++ rest) r = readSection d rest r := by
  induction ls with
  | nil => rfl
  | cons l ls ih =>
    obtain ⟨hstart, hend⟩ := h l List.mem_cons_self
    rw [List.cons_append, readSection]
    simp only [hstart, hend, hr, Bool.not_false, if_true, Bool.false_eq_true, if_false]
    exact ih fun l hl => h l (List.mem_cons_of_mem _ hl)

theorem readSection_first (h : d.isStart first) (r : Reader) (rest : List Str) :
    readSection d (first :: rest) r = readSection d rest { r with start := true } := by
  rw [readSection, if_pos h]

theorem readSection_last (h : d.isStart last = false ∧ d.isEnd last) (r : Reader) (post : List Str) :
    readSection d (last :: post) r = some r.result := by
  simp only [readSection, h.1, h.2, Bool.false_eq_true, if_false, if_true]

theorem readSection_inside (h : ∀ l ∈ ls, d.isStart l = false ∧ d.isEnd l = false) (hr : r.start) (rest : List Str) :
    readSection d (ls ++ rest) r = (ls.foldlM (Reader.line d.define) r).bind (readSection d rest) := by
  induction ls generalizing r with
  | nil => rfl
  | cons l ls ih =>
    obtain ⟨hstart, hend⟩ := h l List.mem_cons_self
    rw [List.cons_append, readSection, List.foldlM_cons]
    simp only [hstart, hend, hr, Bool.not_true, Bool.false_eq_true, if_false]
    cases hline : r.line d.define l with
    | none => rfl
    | some r' => exact ih (fun l hl => h l (List.mem_cons_of_mem _ hl)) ((start_line hline).trans hr)

/-- Nothing after the end marker matters. -/
theorem readSection_post (h : d.isStart last = false ∧ d.isEnd last) (r : Reader) (post post' : List Str) :
    readSection d (ls ++ last :: post) r = readSection d (ls ++ last :: post') r := by
  induction ls generalizing r with
  | nil => rw [List.nil_append, List.nil_append, readSection_last h, readSection_last h]
  | cons l ls ih =>
    have hrest : readSection d (ls ++ last :: post) = readSection d (ls ++ last :: post') := funext ih
    simp only [List.cons_append, readSection, hrest]

theorem clear_empty : Clear mark Fields.empty := ⟨fun _ _ h => (nomatch h), fun _ _ _ h => (nomatch h)⟩

theorem Clear.put {defines : Defines} (h : Clear mark defines) {mod : Str} (hmod : ¬ Marked mark mod)
    {t : Fields Str Num} (ht : ∀ pro val, t.get pro = some val → ¬ Marked mark pro) :
    Clear mark (defines.put mod (some t)) where
  modules := by
    intro mod' t' ht'
    rw [Fields.get_put] at ht'
    split at ht'
    · rename_i heq
      rwa [heq]
    · exact h.modules mod' t' ht'
  messages := by
    intro mod' pro val hval
    rw [num_put] at hval
    split at hval
    · exact ht pro val hval
    · exact h.messages mod' pro val hval

/-- The names that are read have no text of the markers in them. -/
theorem clear_line {define l : Str} (hl : ¬ Marked mark l) (hr : Clear mark r.result)
    (h : r.line define l = some r') : Clear mark r'.result := by
  rcases Reader.line_cases h with ⟨-, rfl⟩ | ⟨mod, hmatch, rfl⟩ | ⟨mod, t, pro, val, -, ht, hmatch, rfl⟩
  · exact hr
  · exact hr.put (fun hm => hl (hm.of_part (matchPair_eq_some hmatch).2.1)) fun _ _ h => by cases h
  · refine hr.put (hr.modules mod t ht) fun pro' val' hval => ?_
    rw [Fields.get_put] at hval
    split at hval
    · rename_i hpro
      rw [hpro]
      exact fun hm => hl (hm.of_part (infix_of_matchNumber hmatch))
    · exact hr.messages mod pro' val' (by rw [num, ht]; exact hval)

theorem clear_readSection {result : Defines} (hr : Clear mark r.result)
    (h : readSection (tmpDict mark) ls r = some result) : Clear mark result :=
  readSection_keeps (fun _ _ _ hstart hend hr hline => clear_line (not_marked_iff.2 ⟨hstart, hend⟩) hr hline) hr h

end Pass

/-! ## The new file -/

section New

variable {mark : Mark} {file : Str} {pre body post : List Str} {first last : Str}

theorem IsName.notMem {s : Str} (h : IsName s) : '\n' ∉ s :=
  fun hmem => absurd (List.all_eq_true.1 h.word _ hmem) (by decide)

theorem ended_writtenLines (order : Order) (d : Numbers mark) :
    ∀ l ∈ writtenLines order (tmpDict mark).define d.defines, Ended l := by
  intro l hl
  rcases mem_writtenLines d.blocks hl with rfl | rfl | ⟨mod, t, ht, rfl⟩ | ⟨mod, pro, val, hval, rfl⟩
  · exact ⟨[], List.not_mem_nil, rfl⟩
  · exact ⟨['\x7d'], by decide, rfl⟩
  · refine ⟨(tmpDict mark).define ++ ['.'] ++ mod ++ " = \x7b".toList, ?_, by simp [moduleLine]⟩
    have hdefine : '\n' ∉ (tmpDict mark).define := by cases mark <;> decide
    simp [hdefine, (d.modules mod t ht).notMem]
  · refine ⟨"    ".toList ++ pro ++ " = ".toList ++ val.str ++ [','], ?_, by simp [messageLine_eq]⟩
    have hstr : '\n' ∉ val.str := fun h => absurd (List.all_eq_true.1 val.isDigit_str _ h) (by decide)
    simp [hstr, (d.messages mod pro val hval).1.notMem]

/-- The new file has the lines of the old one up to the start marker and from the end marker on. -/
theorem readlines_writeToFile (order : Order) (d : Numbers mark)
    (hlines : readlines file = pre ++ first :: (body ++ last :: post))
    (h : IsSection (tmpDict mark) pre first body last) : readlines (writeToFile order mark file d.defines) =
      pre ++ first :: (writtenLines order (tmpDict mark).define d.defines ++ last :: post) := by
  have hsplit : readlines file = (pre ++ first :: body) ++ last :: post := by simp [hlines]
  obtain ⟨hended, hpost⟩ := ended_of_readlines hsplit
  have hstarts : ∀ l ∈ pre ++ [first], Ended l := fun l hl => hended l (by
    rcases List.mem_append.1 hl with hl | hl
    · exact List.mem_append_left _ hl
    · exact List.mem_append_right _ (List.mem_cons.2 (Or.inl (List.mem_singleton.1 hl))))
  rw [writeToFile_eq order hlines h, List.append_assoc, readlines_flatten_append hstarts,
    readlines_flatten_append (ended_writtenLines order d), hpost, List.append_assoc, List.singleton_append]

/-- The new section is read. -/
theorem parse_writeToFile (order : Order) (d : Numbers mark)
    (hlines : readlines file = pre ++ first :: (body ++ last :: post))
    (h : IsSection (tmpDict mark) pre first body last) (hclear : Clear mark d.defines) :
    ∃ result, parseDefines mark (writeToFile order mark file d.defines) = some result ∧
      (∀ e ∈ written order d.defines, view result e.1 = some (Num.readAll e.2)) ∧
      ∀ j, j ∉ (written order d.defines).map Prod.fst → view result j = none := by
  obtain ⟨r', hr', hmem, hother⟩ := read_written order d { start := true }
  refine ⟨r'.result, ?_, hmem, hother⟩
  have hwritten : ∀ l ∈ writtenLines order (tmpDict mark).define d.defines,
      (tmpDict mark).isStart l = false ∧ (tmpDict mark).isEnd l = false :=
    fun l hl => not_marked_iff.1 (not_marked_writtenLines d.blocks hclear l hl)
  rw [parseDefines, readlines_writeToFile order d hlines h, readSection_before h.before rfl, readSection_first h.opens,
    readSection_inside hwritten rfl, hr', Option.bind_some, readSection_last h.closes]

theorem Same.exists_get {result defines : Defines} (h : Same result defines) {mod : Str} {t : Fields Str Num}
    (ht : defines.get mod = some t) : ∃ u, result.get mod = some u ∧ u.get = Num.readAll t := by
  have hmod := congrFun h mod
  rw [ht] at hmod
  exact Option.map_eq_some_iff.1 hmod

/-- The names that are read back are those of the numbering. -/
theorem Same.clear {result defines : Defines} (h : Same result defines) (hread : Clear mark result) :
    Clear mark defines where
  modules := by
    intro mod t ht
    obtain ⟨u, hu, -⟩ := h.exists_get ht
    exact hread.modules mod u hu
  messages := by
    intro mod pro val hval
    obtain ⟨t, ht, hpro⟩ := Option.bind_eq_some_iff.1 hval
    obtain ⟨u, hu, hget⟩ := h.exists_get ht
    refine hread.messages mod pro (.text val.written) ?_
    rw [num, hu, Option.bind_some, hget, Num.readAll, hpro]
    rfl

/-- The numbering is read back iff every module has a number and no name has a text of the markers in it. -/
theorem section_iff (order : Order) (d : Numbers mark)
    (hlines : readlines file = pre ++ first :: (body ++ last :: post))
    (h : IsSection (tmpDict mark) pre first body last) :
    (∃ result, parseDefines mark (writeToFile order mark file d.defines) = some result ∧ Same result d.defines) ↔
      Numbered d.defines ∧ Clear mark d.defines := by
  constructor
  · rintro ⟨result, hparse, hsame⟩
    have hclear : Clear mark d.defines := hsame.clear (clear_readSection clear_empty hparse)
    refine ⟨fun mod t ht => ?_, hclear⟩
    obtain ⟨result', hparse', -, hother⟩ := parse_writeToFile order d hlines h hclear
    rw [hparse] at hparse'
    cases hparse'
    obtain ⟨u, hu, -⟩ := hsame.exists_get ht
    by_cases hmem : mod ∈ (written order d.defines).map Prod.fst
    · obtain ⟨t', ht', hnum⟩ := (mem_map_written order d.blocks).1 hmem
      rw [ht] at ht'
      cases ht'
      exact hnum
    · -- a module that is not written is not read
      have hnone := hother mod hmem
      rw [view, hu] at hnone
      cases hnone
  · rintro ⟨hnum, hclear⟩
    obtain ⟨result, hparse, hmem, hother⟩ := parse_writeToFile order d hlines h hclear
    refine ⟨result, hparse, funext fun mod => ?_⟩
    cases ht : d.defines.get mod with
    | some t => exact hmem (mod, t) ((mem_written order d.blocks).2 ⟨ht, hnum mod t ht⟩)
    | none =>
      refine hother mod fun hmem => ?_
      obtain ⟨t, ht', -⟩ := (mem_map_written order d.blocks).1 hmem
      rw [ht] at ht'
      cases ht'

end New

/-! ## The other direction -/

section Other

variable {d : TmpDict} {ls rest : List Str}

/-- A line that is not of a module of the direction. -/
def Foreign (d : TmpDict) (l : Str) : Prop := ∀ mod, matchModule l ≠ some (d.define, mod)

theorem line_foreign {l : Str} (h : Foreign d l) (r : Reader) (hmod : r.mod = none) :
    r.line d.define l = some r ∨ r.line d.define l = none := by
  cases hline : r.line d.define l with
  | none => exact Or.inr rfl
  | some r' =>
    rcases Reader.line_cases hline with ⟨-, rfl⟩ | ⟨mod, hmatch, -⟩ | ⟨mod, t, pro, val, hmod', -, -, -⟩
    · exact Or.inl rfl
    · exact absurd hmatch (h mod)
    · rw [hmod] at hmod'
      cases hmod'

/-- A reader that is started early by foreign lines stops at them, raises, or is started still. -/
theorem readSection_started (h : ∀ l ∈ ls, Foreign d l) (rest : List Str) :
    readSection d (ls ++ rest) { start := true } = some Fields.empty ∨
      readSection d (ls ++ rest) { start := true } = none ∨
      readSection d (ls ++ rest) { start := true } = readSection d rest { start := true } := by
  induction ls with
  | nil => exact Or.inr (Or.inr rfl)
  | cons l ls ih =>
    have ih := ih fun l hl => h l (List.mem_cons_of_mem _ hl)
    rw [List.cons_append, readSection]
    split
    · exact ih
    split
    · exact Or.inl rfl
    · rcases line_foreign (h l List.mem_cons_self) { start := true } rfl with hl | hl
      · simpa [hl] using ih
      · exact Or.inr (Or.inl (by simp [hl]))

/-- Foreign lines with a text of a marker in one of them. -/
theorem readSection_marked (h : ∀ l ∈ ls, Foreign d l) (hmarked : ∃ l ∈ ls, d.isStart l ∨ d.isEnd l) (rest : List Str) :
    readSection d (ls ++ rest) {} = some Fields.empty ∨ readSection d (ls ++ rest) {} = none ∨
      readSection d (ls ++ rest) {} = readSection d rest { start := true } := by
  induction ls with
  | nil =>
    obtain ⟨l, hl, -⟩ := hmarked
    exact absurd hl List.not_mem_nil
  | cons l ls ih =>
    have hrest : ∀ l ∈ ls, Foreign d l := fun l hl => h l (List.mem_cons_of_mem _ hl)
    rw [List.cons_append, readSection]
    split
    · exact readSection_started hrest rest
    · rename_i hstart
      split
      · exact Or.inl rfl
      · rename_i hend
        refine ih hrest ?_
        obtain ⟨l', hl', hmark⟩ := hmarked
        rcases List.mem_cons.1 hl' with rfl | hl'
        · exact absurd hmark (not_or.2 ⟨hstart, hend⟩)
        · exact ⟨l', hl', hmark⟩

variable {mark : Mark}

theorem foreign_writtenLines (order : Order) (d : Numbers mark) :
    ∀ l ∈ writtenLines order (tmpDict mark).define d.defines, Foreign (tmpDict mark.other) l := by
  intro l hl m
  rcases mem_writtenLines d.blocks hl with rfl | rfl | ⟨mod, t, ht, rfl⟩ | ⟨mod, pro, val, -, rfl⟩
  · exact fun h => nomatch h
  · exact fun h => nomatch h
  · rw [matchModule_moduleLine (d.modules mod t ht)]
    intro h
    have hdefine : (tmpDict mark).define ≠ (tmpDict mark.other).define := by cases mark <;> decide
    exact hdefine (congrArg Prod.fst (Option.some.inj h))
  · rw [matchModule_messageLine]
    exact fun h => nomatch h

end Other

/-! ## Files -/

/-- A `netdefines.lua` with the four marker lines: the section of `mark` comes before that of `mark'`. -/
structure NetFile (mark mark' : Mark) where
  file : Str
  pre : List Str
  first : Str
  body : List Str
  last : Str
  between : List Str
  first' : Str
  body' : List Str
  last' : Str
  post : List Str
  lines : readlines file = pre ++ first :: (body ++ last :: (between ++ first' :: (body' ++ last' :: post)))
  section₁ : IsSection (tmpDict mark) pre first body last
  section₂ : IsSection (tmpDict mark') (pre ++ first :: (body ++ last :: between)) first' body' last'

namespace NetFile

variable {mark mark' : Mark} (f : NetFile mark mark')

/-- The lines up to the start marker of the first section, and those from its end marker on. -/
def starts₁ : List Str := f.pre ++ [f.first]

def ends₁ : List Str := f.last :: (f.between ++ f.first' :: (f.body' ++ f.last' :: f.post))

/-- The lines up to the start marker of the second section, and those from its end marker on. -/
def starts₂ : List Str := f.pre ++ f.first :: (f.body ++ f.last :: f.between) ++ [f.first']

def ends₂ : List Str := f.last' :: f.post

theorem lines₂ : readlines f.file =
    (f.pre ++ f.first :: (f.body ++ f.last :: f.between)) ++ f.first' :: (f.body' ++ f.last' :: f.post) := by
  rw [f.lines]
  simp

end NetFile

/-- After a numbering was written, it is read back, the lines up to the start marker and those from the end marker on
are as before, and so is what is read of the other direction. -/
structure Regenerated (order : Order) {mark : Mark} (d : Numbers mark) (file : Str) (starts ends : List Str) :
    Prop where
  read : ∃ result, parseDefines mark (writeToFile order mark file d.defines) = some result ∧ Same result d.defines
  around : ∃ middle, writeToFile order mark file d.defines = starts.flatten ++ middle ++ ends.flatten
  other : parseDefines mark.other (writeToFile order mark file d.defines) = parseDefines mark.other file

section Regenerate

variable {mark : Mark}

/-- A section after that of the other direction does not matter to the other direction. -/
theorem other_second (order : Order) (d : Numbers mark) (f : NetFile mark.other mark) :
    parseDefines mark.other (writeToFile order mark f.file d.defines) = parseDefines mark.other f.file := by
  have hnew := readlines_writeToFile order d f.lines₂ f.section₂
  have hsplit : ∀ rest, (f.pre ++ f.first :: (f.body ++ f.last :: f.between)) ++ f.first' :: rest =
      (f.pre ++ f.first :: f.body) ++ f.last :: (f.between ++ f.first' :: rest) := by simp
  rw [parseDefines, parseDefines, hnew, f.lines₂, hsplit, hsplit]
  exact readSection_post f.section₁.closes _ _ _

/-- A section before that of the other direction does not either, when no name has a text of its markers in it. -/
theorem other_first (order : Order) (d : Numbers mark) (f : NetFile mark mark.other)
    (hclear : Clear mark.other d.defines) :
    parseDefines mark.other (writeToFile order mark f.file d.defines) = parseDefines mark.other f.file := by
  have hnew := readlines_writeToFile order d f.lines f.section₁
  have hbefore := f.section₂.before
  have hwritten : ∀ l ∈ f.pre ++ f.first :: (writtenLines order (tmpDict mark).define d.defines ++ f.last :: f.between),
      (tmpDict mark.other).isStart l = false ∧ (tmpDict mark.other).isEnd l = false := by
    intro l hl
    simp only [List.mem_append, List.mem_cons] at hl hbefore
    rcases hl with hl | rfl | hl | rfl | hl
    · exact hbefore l (Or.inl hl)
    · exact hbefore _ (Or.inr (Or.inl rfl))
    · exact not_marked_iff.1 (not_marked_writtenLines d.blocks hclear l hl)
    · exact hbefore _ (Or.inr (Or.inr (Or.inr (Or.inl rfl))))
    · exact hbefore l (Or.inr (Or.inr (Or.inr (Or.inr hl))))
  have hsplit : ∀ ls, f.pre ++ f.first :: (ls ++ f.last :: (f.between ++ f.first' :: (f.body' ++ f.last' :: f.post))) =
      (f.pre ++ f.first :: (ls ++ f.last :: f.between)) ++ f.first' :: (f.body' ++ f.last' :: f.post) := by simp
  rw [parseDefines, parseDefines, hnew, f.lines, hsplit, hsplit, readSection_before hwritten rfl,
    readSection_before f.section₂.before rfl]

def markerLine (text : Str) : Str := "--".toList ++ text ++ "--\n".toList

/-- A file with a number outside of the sections, where the section of the other direction has a module. -/
def outsideFile (mark : Mark) : NetFile mark mark.other where
  file := [markerLine (tmpDict mark).startText, markerLine (tmpDict mark).endText, "x = 5\n".toList,
    markerLine (tmpDict mark.other).startText, moduleLine (tmpDict mark.other).define ['m'],
    markerLine (tmpDict mark.other).endText].flatten
  pre := []
  first := markerLine (tmpDict mark).startText
  body := []
  last := markerLine (tmpDict mark).endText
  between := ["x = 5\n".toList]
  first' := markerLine (tmpDict mark.other).startText
  body' := [moduleLine (tmpDict mark.other).define ['m']]
  last' := markerLine (tmpDict mark.other).endText
  post := []
  lines := by cases mark <;> decide
  section₁ := ⟨by cases mark <;> decide, by cases mark <;> decide, by cases mark <;> decide, by cases mark <;> decide⟩
  section₂ := ⟨by cases mark <;> decide, by cases mark <;> decide, by cases mark <;> decide, by cases mark <;> decide⟩

theorem parse_outsideFile (mark : Mark) : parseDefines mark.other (outsideFile mark).file =
    some (Fields.empty.put ['m'] (some Fields.empty)) := by
  cases mark <;> rfl

theorem started_outsideFile (mark : Mark) :
    readSection (tmpDict mark.other) (outsideFile mark).ends₁ { start := true } = none := by
  cases mark <;> rfl

/-- With a text of the markers of the other direction in a name, there is a file whose other section is lost. -/
theorem clear_other (order : Order) (d : Numbers mark) (hnum : Numbered d.defines)
    (h : parseDefines mark.other (writeToFile order mark (outsideFile mark).file d.defines) =
      parseDefines mark.other (outsideFile mark).file) : Clear mark.other d.defines := by
  refine clear_of_not_marked order mark d.blocks hnum fun l hl hmarked => ?_
  have hnew := readlines_writeToFile order d (outsideFile mark).lines (outsideFile mark).section₁
  have hfirst : ∀ l ∈ [(outsideFile mark).first],
      (tmpDict mark.other).isStart l = false ∧ (tmpDict mark.other).isEnd l = false := by
    cases mark <;> decide
  have hmark : (tmpDict mark.other).isStart l ∨ (tmpDict mark.other).isEnd l :=
    hmarked.imp decide_eq_true decide_eq_true
  have hread : parseDefines mark.other (writeToFile order mark (outsideFile mark).file d.defines) =
      readSection (tmpDict mark.other) (writtenLines order (tmpDict mark).define d.defines ++ (outsideFile mark).ends₁)
        {} := by
    rw [parseDefines, hnew]
    exact readSection_before hfirst rfl _
  rw [hread, parse_outsideFile] at h
  rcases readSection_marked (foreign_writtenLines order d) ⟨l, hl, hmark⟩ (outsideFile mark).ends₁ with hs | hs | hs
  · rw [hs] at h
    have hget := congrArg (fun r : Option Defines => r.bind fun t => t.get ['m']) h
    rw [Option.bind_some, Option.bind_some, Fields.get_put_self] at hget
    cases hget
  · rw [hs] at h
    cases h
  · rw [hs, started_outsideFile] at h
    cases h

theorem around_of_section (order : Order) (d : Numbers mark) {file : Str} {pre body post : List Str} {first last : Str}
    (hlines : readlines file = pre ++ first :: (body ++ last :: post))
    (h : IsSection (tmpDict mark) pre first body last) : ∃ middle,
      writeToFile order mark file d.defines = (pre ++ [first]).flatten ++ middle ++ (last :: post).flatten :=
  ⟨_, writeToFile_eq order hlines h d.defines⟩

/-- Writing a numbering loses nothing, whatever the file with the section after that of the other direction, iff every
module has a number and no name has a text of the direction's markers in it; when the section comes first, no name may
have a text of the other markers in it either. -/
theorem regenerated_iff (order : Order) (d : Numbers mark) :
    (∀ f : NetFile mark.other mark,
      Regenerated order d f.file f.starts₂ f.ends₂ ↔ Numbered d.defines ∧ Clear mark d.defines) ∧
    (∀ f : NetFile mark mark.other,
      Regenerated order d f.file f.starts₁ f.ends₁ → Numbered d.defines ∧ Clear mark d.defines) ∧
    ((∀ f : NetFile mark mark.other, Regenerated order d f.file f.starts₁ f.ends₁) ↔
      (Numbered d.defines ∧ Clear mark d.defines) ∧ Clear mark.other d.defines) := by
  have hfirst : ∀ f : NetFile mark mark.other, Regenerated order d f.file f.starts₁ f.ends₁ →
      Numbered d.defines ∧ Clear mark d.defines := fun f h => (section_iff order d f.lines f.section₁).1 h.read
  refine ⟨fun f => ⟨fun h => (section_iff order d f.lines₂ f.section₂).1 h.read, fun h => ?_⟩, hfirst, ?_, ?_⟩
  · exact ⟨(section_iff order d f.lines₂ f.section₂).2 h, around_of_section order d f.lines₂ f.section₂,
      other_second order d f⟩
  · intro h
    have hown := hfirst _ (h (outsideFile mark))
    exact ⟨hown, clear_other order d hown.1 (h (outsideFile mark)).other⟩
  · rintro ⟨hown, hclear⟩ f
    exact ⟨(section_iff order d f.lines f.section₁).2 hown, around_of_section order d f.lines f.section₁,
      other_first order d f hclear⟩

/-- A numbering with the message `C2GSStartGame`. -/
def startGame : Numbers .client where
  defines := oneMessage "game".toList "C2GSStartGame".toList (.int 1000)
  modules := by
    intro mod t h
    rw [oneMessage, Fields.get_put] at h
    split at h
    · rename_i hmod
      rw [hmod]
      exact ⟨by decide, by decide⟩
    · cases h
  messages := by
    intro mod pro val h
    obtain ⟨-, rfl, -⟩ := num_oneMessage h
    exact ⟨⟨by decide, by decide⟩, by decide⟩
  blocks := by
    intro mod pro val mod' pro' val' h h'
    obtain ⟨rfl, -, rfl⟩ := num_oneMessage h
    obtain ⟨rfl, -, rfl⟩ := num_oneMessage h'
    exact iff_of_true rfl rfl

/-- A file with two empty sections. -/
def emptyFile : NetFile .client .server where
  file := "local M = \x7b\x7d\n--C2GSStart--\n--C2GSEnd--\n\n--GS2CStart--\n--GS2CEnd--\nreturn M\n".toList
  pre := ["local M = \x7b\x7d\n".toList]
  first := "--C2GSStart--\n".toList
  body := []
  last := "--C2GSEnd--\n".toList
  between := ["\n".toList]
  first' := "--GS2CStart--\n".toList
  body' := []
  last' := "--GS2CEnd--\n".toList
  post := ["return M\n".toList]
  lines := by decide
  section₁ := ⟨by decide, by decide, by decide, by decide⟩
  section₂ := ⟨by decide, by decide, by decide, by decide⟩

/-- The message is not read back. -/
theorem not_regenerated : ¬ Regenerated Order.made startGame emptyFile.file emptyFile.starts₁ emptyFile.ends₁ := by
  intro h
  have hclear := ((section_iff Order.made startGame emptyFile.lines emptyFile.section₁).1 h.read).2
  have hpro : num startGame.defines "game".toList "C2GSStartGame".toList = some (.int 1000) := by decide
  exact hclear.messages _ _ _ hpro (Or.inl (by decide))

end Regenerate

/-! ## A run -/

section Run

variable {mark : Mark} {file : Str} {pre body post : List Str} {first last : Str}

/-- The modules and the messages after a run are those of the proto files. -/
theorem get_run (order : Order) (sec : Section) (p : Protos) {mod : Str} {t : Fields Str Num}
    (ht : (setProtoNum order (merge order sec.defines p.protos)).get mod = some t) :
    ∃ u, p.protos.get mod = some u := by
  obtain ⟨s, hset, hinv⟩ := inv_setProtoNum order (mixed_merge order sec p)
  cases hmod : p.protos.get mod with
  | some u => exact ⟨u, rfl⟩
  | none =>
    have hgone := hinv.gone mod (by rw [get_merge, hmod]; rfl)
    rw [← hset, ht] at hgone
    cases hgone

theorem num_run (order : Order) (sec : Section) (p : Protos) {mod pro : Str} {val : Num}
    (hval : num (setProtoNum order (merge order sec.defines p.protos)) mod pro = some val) :
    ∃ zero, num p.protos mod pro = some zero := by
  obtain ⟨start, h⟩ := exists_given order sec p
  exact Option.isSome_iff_exists.1 (h.all mod pro val hval).1

/-- The numbering that a run writes. -/
def runNumbers (order : Order) (sec : Section) (p : Protos) {filelist : List (Str × Str)}
    (hprotos : parseProto mark filelist = some p.protos) (hmods : ∀ mod t, p.protos.get mod = some t → IsName mod)
    (hroom : Room sec.defines p.protos) : Numbers mark where
  defines := setProtoNum order (merge order sec.defines p.protos)
  modules := by
    intro mod t ht
    obtain ⟨u, hu⟩ := get_run order sec p ht
    exact hmods mod u hu
  messages := by
    intro mod pro val hval
    obtain ⟨zero, hzero⟩ := num_run order sec p hval
    exact names_parseProto hprotos mod pro zero hzero
  blocks := by
    obtain ⟨start, h⟩ := exists_given order sec p
    exact (h.stable hroom).blocks

/-- After a run, the messages that are still present are read back from the new file with their old numbers, when there
is room for the new messages and no name has a text of the direction's markers in it. -/
theorem processProto_kept (order : Order) (sec : Section) (p : Protos) {filelist : List (Str × Str)}
    (hlines : readlines file = pre ++ first :: (body ++ last :: post))
    (hsection : IsSection (tmpDict mark) pre first body last) (hdefines : parseDefines mark file = some sec.defines)
    (hprotos : parseProto mark filelist = some p.protos) (hmods : ∀ mod t, p.protos.get mod = some t → IsName mod)
    (hroom : Room sec.defines p.protos) (hclear : Clear mark p.protos) :
    ∃ new result, processProto order mark file filelist = some new ∧ parseDefines mark new = some result ∧
      ∀ mod pro val, num sec.defines mod pro = some val → (num p.protos mod pro).isSome →
        num result mod pro = some val := by
  have hwrites : Clear mark (runNumbers order sec p hprotos hmods hroom).defines := by
    refine ⟨fun mod t ht => ?_, fun mod pro val hval => ?_⟩
    · obtain ⟨u, hu⟩ := get_run order sec p ht
      exact hclear.modules mod u hu
    · obtain ⟨zero, hzero⟩ := num_run order sec p hval
      exact hclear.messages mod pro zero hzero
  obtain ⟨result, hparse, hread, -⟩ :=
    parse_writeToFile order (runNumbers order sec p hprotos hmods hroom) hlines hsection hwrites
  refine ⟨_, result, ?_, hparse, fun mod pro val hval hthere => ?_⟩
  · rw [processProto, hdefines, hprotos]
    rfl
  · obtain ⟨start, h⟩ := exists_given order sec p
    have hkept := (h.kept mod pro val hval hthere).1
    obtain ⟨t, ht, hpro⟩ := Option.bind_eq_some_iff.1 hkept
    cases val with
    | int n => exact absurd (sec.texts mod pro _ hval) (by simp [Num.isText])
    | text digits =>
      -- its module has a number, so it is written
      have hmem := (mem_written order (runNumbers order sec p hprotos hmods hroom).blocks).2
        ⟨ht, pro, .text digits, hpro, fun h => nomatch h⟩
      obtain ⟨u, hu, hget⟩ := Option.map_eq_some_iff.1 (hread (mod, t) hmem)
      rw [num, hu, Option.bind_some, hget, Num.readAll, hpro]
      rfl

end Run

end RoundGame.Shell
