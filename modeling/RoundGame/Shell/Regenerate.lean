import RoundGame.Shell.WriteToFile

/-!
# A section that is written is read back

- A module is written iff it has a number (`mem_written`), and once (`nodup_written`);
- a line that is written has a text of a marker iff its name has it (`marked_moduleLine`, `marked_messageLine`);
- the reader gets the modules from the lines, with their messages and the numbers as they are written (`read_written`).
-/

namespace RoundGame.Shell

open Text

/-! ## Numberings -/

/-- A numbering of a direction: modules and messages with their names, each module with numbers in its own block. -/
structure Numbers (mark : Mark) where
  defines : Defines
  modules : ∀ mod t, defines.get mod = some t → IsName mod
  messages : ∀ mod pro val, num defines mod pro = some val → IsName pro ∧ starts mark <+: pro
  blocks : Blocks defines

theorem Num.str_ne (val : Num) : val.str ≠ [] := by
  cases val with
  | text s => exact s.ne
  | int n => exact Nat.toDigits_ne_nil

theorem Num.isDigit_str (val : Num) : val.str.all Char.isDigit := by
  cases val with
  | text s => exact s.all
  | int n => exact List.all_eq_true.2 fun c hc => Nat.isDigit_of_mem_toDigits (by decide) (by decide) hc

/-- A number as it is written. -/
def Num.written (val : Num) : Numeral := ⟨val.str, val.str_ne, val.isDigit_str⟩

/-- What a dictionary holds under each module. -/
def view (defines : Defines) (mod : Str) : Option (Str → Option Num) := (defines.get mod).map Fields.get

/-- The dictionary that is read has exactly the messages of the numbering, with their numbers as they are written. -/
def Same (result defines : Defines) : Prop :=
  view result = fun mod => (defines.get mod).map fun t pro => (t.get pro).map fun val => .text val.written

section Written

variable {order : Order} {defines : Defines}

theorem num_of_mem_items {c : Call} {mod pro : Str} {t : Fields Str Num} {val : Num} (ht : defines.get mod = some t)
    (h : (pro, val) ∈ order.items c t) : num defines mod pro = some val := by
  rw [num, ht]
  exact (order.mem_items c t).1 h

theorem get_startTurn {mod : Str} {t : Fields Nat Str} {e : Str × Num} (i : Nat) :
    (startTurn mod t e).get i = if e.2 ≠ .int 0 ∧ i = e.2.toInt / 1000 then some mod else t.get i := by
  unfold startTurn
  by_cases hne : e.2 = .int 0
  · simp [hne]
  · simp [hne, Fields.get_put]

/-- Every block is that of a number of its module. -/
def Owned (defines : Defines) (t : Fields Nat Str) : Prop := ∀ i mod, t.get i = some mod →
  ∃ pro val, num defines mod pro = some val ∧ val ≠ .int 0 ∧ val.toInt / 1000 = i

theorem owned_start2mod (order : Order) (defines : Defines) : Owned defines (start2mod order defines) := by
  refine List.foldlRecOn (motive := Owned defines) (order.items .blocks defines) _ ?_ fun t ht e he => ?_
  · exact fun _ _ h => nomatch h
  · have hmod : defines.get e.1 = some e.2 := (order.mem_items .blocks defines).1 he
    refine List.foldlRecOn (motive := Owned defines) (order.items (.blocksOf e.1) e.2) _ ht fun t ht e' he' => ?_
    intro i mod hi
    rw [get_startTurn] at hi
    split at hi
    · rename_i heq
      cases hi
      exact ⟨e'.1, e'.2, num_of_mem_items hmod he', heq.1, heq.2.symm⟩
    · exact ht i mod hi

theorem isSome_start2mod (order : Order) {mod pro : Str} {val : Num} (hval : num defines mod pro = some val)
    (hne : val ≠ .int 0) : ((start2mod order defines).get (val.toInt / 1000)).isSome := by
  obtain ⟨t, ht, hpro⟩ := Option.bind_eq_some_iff.1 hval
  have hkeep : ∀ mod' (t : Fields Nat Str) (e : Str × Num), (t.get (val.toInt / 1000)).isSome →
      ((startTurn mod' t e).get (val.toInt / 1000)).isSome := by
    intro mod' t e ht
    rw [get_startTurn]
    split
    · rfl
    · exact ht
  have hmodule : ∀ (t : Fields Nat Str) (e : Str × Fields Str Num), (t.get (val.toInt / 1000)).isSome →
      (((order.items (.blocksOf e.1) e.2).foldl (startTurn e.1) t).get (val.toInt / 1000)).isSome := fun t e ht =>
    List.foldlRecOn (motive := fun t : Fields Nat Str => (t.get (val.toInt / 1000)).isSome) _ _ ht
      fun t ht e' _ => hkeep e.1 t e' ht
  refine Fields.foldl_reaches (P := fun t : Fields Nat Str => (t.get (val.toInt / 1000)).isSome) hmodule
    ((order.mem_items .blocks defines).2 ht) (fun s => ?_) _
  refine Fields.foldl_reaches (P := fun t : Fields Nat Str => (t.get (val.toInt / 1000)).isSome)
    (fun t e ht => hkeep mod t e ht) ((order.mem_items (.blocksOf mod) t).2 hpro) (fun s => ?_) _
  rw [get_startTurn, if_pos ⟨hne, rfl⟩]
  rfl

/-- `start2mod` has the module of each number, under the block of the number. -/
theorem get_start2mod (order : Order) (h : Blocks defines) (i : Nat) (mod : Str) :
    (start2mod order defines).get i = some mod ↔
      ∃ pro val, num defines mod pro = some val ∧ val ≠ .int 0 ∧ val.toInt / 1000 = i := by
  constructor
  · exact owned_start2mod order defines i mod
  · rintro ⟨pro, val, hval, hne, rfl⟩
    obtain ⟨mod', hmod'⟩ := Option.isSome_iff_exists.1 (isSome_start2mod order hval hne)
    obtain ⟨pro', val', hval', -, hblock⟩ := owned_start2mod order defines _ mod' hmod'
    rw [hmod', (h _ _ _ _ _ _ hval' hval).1 hblock]

/-- A module is written when it has a number. -/
theorem mem_written (order : Order) (h : Blocks defines) {mod : Str} {t : Fields Str Num} :
    (mod, t) ∈ written order defines ↔
      defines.get mod = some t ∧ ∃ pro val, t.get pro = some val ∧ val ≠ .int 0 := by
  simp only [written, List.mem_filterMap, List.mem_mergeSort, Option.bind_eq_some_iff, Option.map_eq_some_iff,
    Prod.mk.injEq, get_start2mod order h]
  constructor
  · rintro ⟨i, -, mod', ⟨pro, val, hval, hne, -⟩, u, hu, rfl, rfl⟩
    rw [num, hu] at hval
    exact ⟨hu, pro, val, hval, hne⟩
  · rintro ⟨ht, pro, val, hval, hne⟩
    have hnum : num defines mod pro = some val := by rwa [num, ht]
    have hblock := (get_start2mod order h (val.toInt / 1000) mod).2 ⟨pro, val, hnum, hne, rfl⟩
    have hkey := Fields.mem_keys.2 (Option.isSome_iff_exists.2 ⟨mod, hblock⟩)
    exact ⟨_, hkey, mod, ⟨pro, val, hnum, hne, rfl⟩, t, ht, rfl, rfl⟩

theorem mem_map_written (order : Order) (h : Blocks defines) {mod : Str} :
    mod ∈ (written order defines).map Prod.fst ↔
      ∃ t, defines.get mod = some t ∧ ∃ pro val, t.get pro = some val ∧ val ≠ .int 0 := by
  constructor
  · intro hmem
    obtain ⟨⟨_, t⟩, he, rfl⟩ := List.mem_map.1 hmem
    exact ⟨t, (mem_written order h).1 he⟩
  · rintro ⟨t, ht⟩
    exact List.mem_map.2 ⟨(mod, t), (mem_written order h).2 ht, rfl⟩

/-- A module has one block, so it is written once. -/
theorem nodup_written (order : Order) (h : Blocks defines) : ((written order defines).map Prod.fst).Nodup := by
  have hkeys : ((start2mod order defines).keys.mergeSort (· ≤ ·)).Nodup :=
    (List.mergeSort_perm _ _).nodup_iff.2 (start2mod order defines).nodup
  rw [written, List.map_filterMap]
  refine hkeys.filterMap fun i j mod hi hj => ?_
  simp only [Option.mem_def, Option.map_eq_some_iff, Option.bind_eq_some_iff] at hi hj
  obtain ⟨_, ⟨mod', hi, _, _, rfl⟩, rfl⟩ := hi
  obtain ⟨_, ⟨mod', hj, _, _, rfl⟩, rfl⟩ := hj
  obtain ⟨pro, val, hval, -, rfl⟩ := (get_start2mod order h i _).1 hi
  obtain ⟨pro', val', hval', -, rfl⟩ := (get_start2mod order h j _).1 hj
  exact (h _ _ _ _ _ _ hval hval').2 rfl

end Written

/-! ## Markers in the lines -/

/-- A text that marks a line for the reader of a direction. -/
def Marked (mark : Mark) (l : Str) : Prop := (tmpDict mark).startText <:+: l ∨ (tmpDict mark).endText <:+: l

/-- No name has a text of the markers of the direction in it. -/
structure Clear (mark : Mark) (defines : Defines) : Prop where
  modules : ∀ mod t, defines.get mod = some t → ¬ Marked mark mod
  messages : ∀ mod pro val, num defines mod pro = some val → ¬ Marked mark pro

section Marks

variable {mark mark' : Mark} {l mod pro : Str} {val : Num}

theorem not_marked_iff : ¬ Marked mark l ↔ (tmpDict mark).isStart l = false ∧ (tmpDict mark).isEnd l = false := by
  simp only [Marked, not_or, TmpDict.isStart, TmpDict.isEnd, decide_eq_false_iff_not]

theorem Marked.of_part {w : Str} (h : Marked mark w) (hw : w <:+: l) : Marked mark l :=
  h.imp (fun h => h.trans hw) fun h => h.trans hw

/-- The texts of the markers are words with a letter that no other part of a line has. -/
theorem marker_chars (mark : Mark) : ∀ w, w = (tmpDict mark).startText ∨ w = (tmpDict mark).endText →
    'C' ∈ w ∧ ' ' ∉ w ∧ '.' ∉ w ∧ ',' ∉ w ∧ ¬ w <:+: (tmpDict mark').define := by
  rintro w (rfl | rfl) <;> cases mark <;> cases mark' <;> decide

theorem not_infix_of_notMem {w : Str} {c : Char} (hc : c ∈ w) (hl : c ∉ l) : ¬ w <:+: l := fun h => hl (h.subset hc)

theorem infix_moduleLine {w : Str} (hw : w = (tmpDict mark).startText ∨ w = (tmpDict mark).endText) :
    w <:+: moduleLine (tmpDict mark').define mod ↔ w <:+: mod := by
  obtain ⟨hC, hspace, hdot, -, hdefine⟩ := @marker_chars mark' mark w hw
  have hline : moduleLine (tmpDict mark').define mod =
      (tmpDict mark').define ++ '.' :: (mod ++ ' ' :: "= \x7b\n".toList) := by
    simp [moduleLine]
  rw [hline, infix_append_cons_iff hdot, infix_append_cons_iff hspace, or_iff_right hdefine,
    or_iff_left (not_infix_of_notMem hC (by decide))]

theorem infix_messageLine {w : Str} (hw : w = (tmpDict mark).startText ∨ w = (tmpDict mark).endText) :
    w <:+: messageLine pro val ↔ w <:+: pro := by
  obtain ⟨hC, hspace, -, hcomma, -⟩ := @marker_chars mark mark w hw
  have hline : messageLine pro val =
      "   ".toList ++ ' ' :: (pro ++ ' ' :: ("=".toList ++ ' ' :: (val.str ++ ',' :: "\n".toList))) := by
    simp [messageLine_eq]
  have hstr : 'C' ∉ val.str := fun h => absurd (List.all_eq_true.1 val.isDigit_str 'C' h) (by decide)
  rw [hline, infix_append_cons_iff hspace, infix_append_cons_iff hspace, infix_append_cons_iff hspace,
    infix_append_cons_iff hcomma, or_iff_right (not_infix_of_notMem hC (by decide)),
    or_iff_left (not_or.2 ⟨not_infix_of_notMem hC (by decide), not_or.2
      ⟨not_infix_of_notMem hC hstr, not_infix_of_notMem hC (by decide)⟩⟩)]

theorem marked_moduleLine : Marked mark (moduleLine (tmpDict mark').define mod) ↔ Marked mark mod :=
  or_congr (infix_moduleLine (Or.inl rfl)) (infix_moduleLine (Or.inr rfl))

theorem marked_messageLine : Marked mark (messageLine pro val) ↔ Marked mark pro :=
  or_congr (infix_messageLine (Or.inl rfl)) (infix_messageLine (Or.inr rfl))

theorem not_marked_blank (mark : Mark) : ¬ Marked mark ['\n'] := by
  unfold Marked
  cases mark <;> decide

theorem not_marked_brace (mark : Mark) : ¬ Marked mark "\x7d\n".toList := by
  unfold Marked
  cases mark <;> decide

end Marks

section Lines

variable {order : Order} {mark mark' : Mark} {defines : Defines} {define : Str}

/-- The lines that are written. -/
theorem mem_writtenLines (h : Blocks defines) {l : Str} (hl : l ∈ writtenLines order define defines) :
    l = ['\n'] ∨ l = "\x7d\n".toList ∨ (∃ mod t, defines.get mod = some t ∧ l = moduleLine define mod) ∨
      ∃ mod pro val, num defines mod pro = some val ∧ l = messageLine pro val := by
  rcases mem_intercalate hl with rfl | ⟨b, hb, hl⟩
  · exact Or.inl rfl
  · obtain ⟨⟨mod, t⟩, he, rfl⟩ := List.mem_map.1 hb
    have ht := ((mem_written order h).1 he).1
    simp only [moduleLines, List.mem_append, List.mem_cons, List.mem_map, List.not_mem_nil, or_false] at hl
    rcases hl with (rfl | ⟨e, he, rfl⟩) | rfl
    · exact Or.inr (Or.inr (Or.inl ⟨mod, t, ht, rfl⟩))
    · exact Or.inr (Or.inr (Or.inr ⟨mod, e.1, e.2, num_of_mem_items ht he, rfl⟩))
    · exact Or.inr (Or.inl rfl)

theorem mem_writtenLines_of_mem {mod : Str} {t : Fields Str Num} (h : (mod, t) ∈ written order defines) {l : Str}
    (hl : l ∈ moduleLines order define mod t) : l ∈ writtenLines order define defines :=
  subset_intercalate _ (List.mem_map.2 ⟨(mod, t), h, rfl⟩) hl

/-- A module that has a number. -/
def Numbered (defines : Defines) : Prop :=
  ∀ mod t, defines.get mod = some t → ∃ pro val, t.get pro = some val ∧ val ≠ .int 0

theorem not_marked_writtenLines (h : Blocks defines) (hclear : Clear mark defines) :
    ∀ l ∈ writtenLines order (tmpDict mark').define defines, ¬ Marked mark l := by
  intro l hl
  rcases mem_writtenLines h hl with rfl | rfl | ⟨mod, t, ht, rfl⟩ | ⟨mod, pro, val, hval, rfl⟩
  · exact not_marked_blank mark
  · exact not_marked_brace mark
  · rw [marked_moduleLine]
    exact hclear.modules mod t ht
  · rw [marked_messageLine]
    exact hclear.messages mod pro val hval

/-- A text of a marker in a name is in the line of the name. -/
theorem clear_of_not_marked (order : Order) (mark' : Mark) (h : Blocks defines) (hnum : Numbered defines)
    (hlines : ∀ l ∈ writtenLines order (tmpDict mark').define defines, ¬ Marked mark l) : Clear mark defines where
  modules := by
    intro mod t ht
    have hmem := (mem_written order h).2 ⟨ht, hnum mod t ht⟩
    rw [← @marked_moduleLine mark mark' mod]
    exact hlines _ (mem_writtenLines_of_mem hmem List.mem_cons_self)
  messages := by
    intro mod pro val hval
    obtain ⟨t, ht, hpro⟩ := Option.bind_eq_some_iff.1 hval
    have hmem := (mem_written order h).2 ⟨ht, hnum mod t ht⟩
    have hitem := (order.mem_items (.keys mod) t).2 hpro
    rw [← @marked_messageLine mark pro val]
    refine hlines _ (mem_writtenLines_of_mem hmem (List.mem_append_left _ (List.mem_cons_of_mem _ ?_)))
    exact List.mem_map.2 ⟨(pro, val), hitem, rfl⟩

end Lines

/-! ## The lines read back -/

section Read

variable {mark : Mark} {r : Reader} {mod pro : Str} {val : Num}

theorem isWord_define (mark : Mark) : (tmpDict mark).define ≠ [] ∧ (tmpDict mark).define.all isWord := by
  cases mark <;> decide

theorem isSpace_of_isWord {c : Char} (h : isWord c) : isSpace c = false := by
  cases hs : isSpace c with
  | false => rfl
  | true =>
    have hmem : c ∈ [' ', '\t', '\n', '\r', '\x0b', '\x0c'] := of_decide_eq_true hs
    have hnone : [' ', '\t', '\n', '\r', '\x0b', '\x0c'].any isWord = false := by decide
    exact absurd h (List.any_eq_false.1 hnone c hmem)

theorem of_digits {s : Str} (hne : s ≠ []) (h : s.all Char.isDigit) : Numeral.of s = some ⟨s, hne, h⟩ :=
  dif_pos ⟨hne, h⟩

theorem matchModule_moduleLine (hmod : IsName mod) :
    matchModule (moduleLine (tmpDict mark).define mod) = some ((tmpDict mark).define, mod) := by
  obtain ⟨hne, hword⟩ := isWord_define mark
  have hline : moduleLine (tmpDict mark).define mod =
      (tmpDict mark).define ++ '.' :: ([] ++ (mod ++ " = \x7b\n".toList)) := by
    simp [moduleLine]
  rw [matchModule, hline]
  exact matchPair_written (by decide) hne hword hmod.ne hmod.word (by decide)

theorem line_moduleLine (hmod : IsName mod) (r : Reader) :
    r.line (tmpDict mark).define (moduleLine (tmpDict mark).define mod) =
      some { r with mod := some mod, result := r.result.put mod (some Fields.empty) } := by
  rw [Reader.line, matchModule_moduleLine hmod]
  exact if_pos rfl

theorem strip_messageLine (hpro : IsName pro) :
    strip (messageLine pro val) = pro ++ ' ' :: ("= ".toList ++ (val.str ++ [','])) := by
  have hdrop : (messageLine pro val).dropWhile isSpace = pro ++ " = ".toList ++ val.str ++ ",\n".toList := by
    have hline : messageLine pro val = "    ".toList ++ (pro ++ " = ".toList ++ val.str ++ ",\n".toList) := by
      simp [messageLine_eq]
    rw [hline]
    refine (takeWhile_append_of (by decide) ?_).2
    obtain ⟨c, l, rfl⟩ := List.exists_cons_of_ne_nil hpro.ne
    exact isSpace_of_isWord (List.all_eq_true.1 hpro.word c List.mem_cons_self)
  have hends : pro ++ " = ".toList ++ val.str ++ ",\n".toList = pro ++ " = ".toList ++ val.str ++ [','] ++ ['\n'] := by
    simp
  rw [strip, hdrop, hends, List.rdropWhile_concat_pos _ _ _ (by decide), List.rdropWhile_concat_neg _ _ _ (by decide)]
  simp

theorem matchNumber_messageLine (hpro : IsName pro) :
    matchNumber (messageLine pro val) = some (pro, val.written) := by
  have hmatch : matchPair [' ', '=', ' '] Char.isDigit (strip (messageLine pro val)) = some (pro, val.str) := by
    rw [strip_messageLine hpro]
    exact matchPair_written (by decide) hpro.ne hpro.word val.str_ne val.isDigit_str (by decide)
  rw [matchNumber, hmatch, Option.bind_some, of_digits val.str_ne val.isDigit_str]
  rfl

theorem matchModule_messageLine (pro : Str) (val : Num) : matchModule (messageLine pro val) = none := by
  have hline : messageLine pro val = [] ++ ' ' :: ("   ".toList ++ pro ++ " = ".toList ++ val.str ++ ",\n".toList) := by
    simp [messageLine_eq]
  rw [matchModule, hline]
  exact matchPair_other rfl (by decide) (by simp)

theorem line_messageLine (hpro : IsName pro) (val : Num) {t : Fields Str Num} (hmod : r.mod = some mod)
    (ht : r.result.get mod = some t) (define : Str) : r.line define (messageLine pro val) =
      some { r with result := r.result.put mod (some (t.put pro (some (.text val.written)))) } := by
  rw [Reader.line, matchModule_messageLine, Reader.number, matchNumber_messageLine hpro]
  simp only [hmod, ht, Option.bind_eq_bind, Option.bind_some]
  rfl

theorem line_blank (define : Str) (r : Reader) : r.line define ['\n'] = some r := rfl

theorem line_brace (define : Str) (r : Reader) : r.line define "\x7d\n".toList = some r := rfl

/-- The entry of a message in the dictionary that is read. -/
def enter (t : Fields Str Num) (e : Str × Num) : Fields Str Num := t.put e.1 (some (.text e.2.written))

/-- The messages of a module are read. -/
theorem read_messages (define : Str) {l : List (Str × Num)} (hnames : ∀ e ∈ l, IsName e.1) (r : Reader)
    {t : Fields Str Num} (hmod : r.mod = some mod) (ht : r.result.get mod = some t) :
    ∃ r', (l.map fun e => messageLine e.1 e.2).foldlM (Reader.line define) r = some r' ∧
      ∀ j, r'.result.get j = if j = mod then some (l.foldl enter t) else r.result.get j := by
  induction l generalizing r t with
  | nil =>
    refine ⟨r, rfl, fun j => ?_⟩
    split
    · rename_i hj
      rw [hj, ht]
      rfl
    · rfl
  | cons e l ih =>
    have hline := line_messageLine (hnames e List.mem_cons_self) e.2 hmod ht define
    obtain ⟨r', hr', hget⟩ := ih (fun e he => hnames e (List.mem_cons_of_mem _ he))
      { r with result := r.result.put mod (some (enter t e)) } hmod (Fields.get_put_self _)
    refine ⟨r', ?_, fun j => ?_⟩
    · rw [List.map_cons, List.foldlM_cons, hline]
      exact hr'
    · rw [hget j, Fields.get_put]
      split
      · rfl
      · rfl

/-- What is read of a module. -/
def Num.readAll (t : Fields Str Num) (pro : Str) : Option Num := (t.get pro).map fun val => .text val.written

theorem get_foldl_enter (order : Order) (c : Call) (t : Fields Str Num) :
    ((order.items c t).foldl enter Fields.empty).get = Num.readAll t := by
  funext pro
  have hturn : ∀ (u : Fields Str Num) (e : Str × Num) j,
      (enter u e).get j = if j = e.1 then some (.text e.2.written) else u.get j := fun u e j => Fields.get_put _
  rw [Fields.view_foldl Fields.get (fun e _ => some (.text e.2.written)) hturn (order.perm c t), Num.readAll]
  cases t.get pro <;> rfl

/-- A module is read. -/
theorem read_module (mark : Mark) (order : Order) (hmod : IsName mod) {t : Fields Str Num}
    (hnames : ∀ pro val, t.get pro = some val → IsName pro) (r : Reader) :
    ∃ r', (moduleLines order (tmpDict mark).define mod t).foldlM (Reader.line (tmpDict mark).define) r = some r' ∧
      ∀ j, view r'.result j = if j = mod then some (Num.readAll t) else view r.result j := by
  obtain ⟨r', hr', hget⟩ := read_messages (tmpDict mark).define (l := order.items (.keys mod) t)
    (fun e he => hnames e.1 e.2 ((order.mem_items _ t).1 he))
    { r with mod := some mod, result := r.result.put mod (some Fields.empty) } rfl (Fields.get_put_self _)
  refine ⟨r', ?_, fun j => ?_⟩
  · rw [moduleLines, List.cons_append, List.foldlM_cons, line_moduleLine hmod]
    refine (List.foldlM_append ..).trans ?_
    rw [hr']
    exact line_brace (tmpDict mark).define r'
  · rw [view, hget j, Fields.get_put]
    split
    · rw [Option.map_some, get_foldl_enter]
    · rfl

/-- The modules are read. -/
theorem read_modules (order : Order) {l : List (Str × Fields Str Num)} (hl : (l.map Prod.fst).Nodup)
    (hnames : ∀ e ∈ l, IsName e.1 ∧ ∀ pro val, e.2.get pro = some val → IsName pro) (r : Reader) :
    ∃ r', ((l.map fun e => moduleLines order (tmpDict mark).define e.1 e.2).flatten).foldlM
        (Reader.line (tmpDict mark).define) r = some r' ∧
      (∀ e ∈ l, view r'.result e.1 = some (Num.readAll e.2)) ∧
      ∀ j, j ∉ l.map Prod.fst → view r'.result j = view r.result j := by
  induction l generalizing r with
  | nil => exact ⟨r, rfl, fun e he => absurd he List.not_mem_nil, fun j _ => rfl⟩
  | cons e l ih =>
    rw [List.map_cons, List.nodup_cons] at hl
    obtain ⟨hmod, hpros⟩ := hnames e List.mem_cons_self
    obtain ⟨r₁, hr₁, hview₁⟩ := read_module mark order hmod hpros r
    obtain ⟨r₂, hr₂, hmem, hother⟩ := ih hl.2 (fun e he => hnames e (List.mem_cons_of_mem _ he)) r₁
    refine ⟨r₂, ?_, ?_, ?_⟩
    · rw [List.map_cons, List.flatten_cons, List.foldlM_append, hr₁]
      exact hr₂
    · intro e' he'
      rcases List.mem_cons.1 he' with rfl | he'
      · rw [hother _ hl.1, hview₁, if_pos rfl]
      · exact hmem e' he'
    · intro j hj
      rw [List.map_cons, List.mem_cons, not_or] at hj
      rw [hother j hj.2, hview₁, if_neg hj.1]

/-- The section is read: the modules that have a number, with the numbers as they are written. -/
theorem read_written (order : Order) (d : Numbers mark) (r : Reader) :
    ∃ r', (writtenLines order (tmpDict mark).define d.defines).foldlM (Reader.line (tmpDict mark).define) r =
        some r' ∧
      (∀ e ∈ written order d.defines, view r'.result e.1 = some (Num.readAll e.2)) ∧
      ∀ j, j ∉ (written order d.defines).map Prod.fst → view r'.result j = view r.result j := by
  rw [writtenLines, foldlM_intercalate (line_blank _)]
  refine read_modules order (nodup_written order d.blocks) (fun e he => ?_) r
  have ht := ((mem_written order d.blocks).1 he).1
  refine ⟨d.modules _ _ ht, fun pro val hval => (d.messages e.1 pro val ?_).1⟩
  rw [num, ht]
  exact hval

end Read

end RoundGame.Shell
