import RoundGame.Lib.Fields
import RoundGame.Lib.Text

/-!
# The numbers of the messages

`netdefines.lua` has a section for each direction, between two marker lines: the modules of the direction, each with
its messages and their numbers. `parse_defines` reads a section, `parse_proto` the messages that the proto files
define. Both give a dictionary of the modules, each a dictionary of its messages.

A number that was read is the text of its digits (`texts_parseDefines`); the messages of the proto files have the
integer 0 in its place (`zero_parseProto`), and their names are words that start as the direction says
(`names_parseProto`).
-/

namespace RoundGame.Shell

open Text

abbrev Str := List Char

/-! ## `tmp_dict` -/

/-- The direction: the messages of the client, and those of the server. -/
inductive Mark
  | client
  | server
deriving DecidableEq

structure TmpDict where
  startText : Str
  endText : Str
  define : Str

def tmpDict : Mark → TmpDict
  | .client => ⟨"C2GSStart".toList, "C2GSEnd".toList, "C2GSDefines".toList⟩
  | .server => ⟨"GS2CStart".toList, "GS2CEnd".toList, "GS2CDefines".toList⟩

def Mark.other : Mark → Mark
  | .client => .server
  | .server => .client

/-! ## Numbers -/

/-- What `\d+` matches. -/
structure Numeral where
  digits : Str
  ne : digits ≠ []
  all : digits.all Char.isDigit
deriving DecidableEq

def Numeral.of (s : Str) : Option Numeral := if h : s ≠ [] ∧ s.all Char.isDigit then some ⟨s, h.1, h.2⟩ else none

inductive Num
  | text (s : Numeral)
  | int (n : Nat)
deriving DecidableEq

/-- `int(val)`. -/
def Num.toInt : Num → Nat
  | .text s => Nat.ofDigitChars 10 s.digits 0
  | .int n => n

/-- `str(val)`. -/
def Num.str : Num → Str
  | .text s => s.digits
  | .int n => Nat.toDigits 10 n

def Num.isText : Num → Bool
  | .text _ => true
  | .int _ => false

/-- The modules of a direction with their messages. -/
abbrev Defines := Fields Str (Fields Str Num)

/-- `defines[mod][pro]`. -/
def num (defines : Defines) (mod pro : Str) : Option Num := (defines.get mod).bind fun t => t.get pro

/-! ## `parse_defines` -/

def TmpDict.isStart (d : TmpDict) (line : Str) : Bool := decide (d.startText <:+: line)

def TmpDict.isEnd (d : TmpDict) (line : Str) : Bool := decide (d.endText <:+: line)

/-- `re.match(r"(\w+)\.(\w+)", line)`. -/
def matchModule (line : Str) : Option (Str × Str) := matchPair ['.'] isWord line

/-- `re.match(r"(\w+) = (\d+)", str.strip(line))`. -/
def matchNumber (line : Str) : Option (Str × Numeral) :=
  (matchPair [' ', '=', ' '] Char.isDigit (strip line)).bind fun m => (Numeral.of m.2).map fun val => (m.1, val)

/-- The variables of `parse_defines`. -/
structure Reader where
  start : Bool := false
  mod : Option Str := none
  result : Defines := Fields.empty

/-- `result[mod][m.groups()[0]] = m.groups()[1]`, which raises while no module was read. -/
def Reader.number (r : Reader) (line : Str) : Option Reader :=
  match matchNumber line with
  | none => some r
  | some (pro, val) => do
    let mod ← r.mod
    let t ← r.result.get mod
    return { r with result := r.result.put mod (some (t.put pro (some (.text val)))) }

/-- A line of the section. -/
def Reader.line (define : Str) (r : Reader) (line : Str) : Option Reader :=
  match matchModule line with
  | some (name, mod) =>
    if name = define then some { r with mod := some mod, result := r.result.put mod (some Fields.empty) }
    else r.number line
  | none => r.number line

/-- The loop over the lines. `none` is an error that is raised. -/
def readSection (d : TmpDict) : List Str → Reader → Option Defines
  | [], r => some r.result
  | line :: lines, r =>
    if d.isStart line then readSection d lines { r with start := true }
    else if d.isEnd line then some r.result
    else if !r.start then readSection d lines r
    else (r.line d.define line).bind (readSection d lines)

def parseDefines (mark : Mark) (file : Str) : Option Defines := readSection (tmpDict mark) (readlines file) {}

/-! ## `parse_proto` -/

/-- The first characters of the names of the messages. -/
def starts : Mark → Str
  | .client => "C2GS".toList
  | .server => "GS2C".toList

def parseLine (mark : Mark) (proto : Fields Str Num) (line : Str) : Fields Str Num :=
  if "message".toList <+: line then
    match matchPair [' '] isWord line with
    | some (_, pro) => if starts mark <+: pro then proto.put pro (some (.int 0)) else proto
    | none => proto
  else proto

/-- The files of the directory, as `ls` lists them, with their contents. When there is none, `ls` prints an empty line
and `open` raises. -/
def parseProto (mark : Mark) (filelist : List (Str × Str)) : Option Defines :=
  if filelist = [] then none
  else
    let body (result : Defines) (file : Str × Str) : Defines :=
      result.put (file.1.takeWhile (· ≠ '.')) (some ((readlines file.2).foldl (parseLine mark) Fields.empty))
    some (filelist.foldl body Fields.empty)

/-! ## What the dictionaries hold -/

theorem num_put (defines : Defines) (mod : Str) (t : Fields Str Num) (mod' pro : Str) :
    num (defines.put mod (some t)) mod' pro = if mod' = mod then t.get pro else num defines mod' pro := by
  unfold num
  rw [Fields.get_put]
  split <;> rfl

/-- A message that is entered in its module. -/
theorem num_put_message {defines : Defines} {mod : Str} {t : Fields Str Num} (ht : defines.get mod = some t)
    (pro : Str) (val : Num) (mod' pro' : Str) : num (defines.put mod (some (t.put pro (some val)))) mod' pro' =
      if mod' = mod ∧ pro' = pro then some val else num defines mod' pro' := by
  rw [num_put, Fields.get_put]
  by_cases hmod : mod' = mod
  · subst hmod
    simp [num, ht]
  · simp [hmod]

/-- A module with one message. -/
def oneMessage (mod pro : Str) (val : Num) : Defines := Fields.empty.put mod (some (Fields.empty.put pro (some val)))

theorem num_oneMessage {mod pro mod' pro' : Str} {val val' : Num}
    (h : num (oneMessage mod pro val) mod' pro' = some val') : mod' = mod ∧ pro' = pro ∧ val' = val := by
  rw [oneMessage, num_put] at h
  split at h
  · rename_i hmod
    rw [Fields.get_put] at h
    split at h
    · rename_i hpro
      exact ⟨hmod, hpro, (Option.some.inj h).symm⟩
    · cases h
  · cases h

/-- Every number of the dictionary has a property. -/
def Each (P : Num → Prop) (defines : Defines) : Prop := ∀ mod pro val, num defines mod pro = some val → P val

theorem each_empty {P : Num → Prop} : Each P Fields.empty := fun _ _ _ h => nomatch h

/-! ### The lines of a section -/

section Lines

variable {d : TmpDict} {define line : Str} {r r' : Reader} {defines : Defines}

/-- What a line does: nothing, or it starts a module, or it enters a message in the module that is read. -/
theorem Reader.line_cases (h : r.line define line = some r') :
    (matchNumber line = none ∧ r' = r) ∨
      (∃ mod, matchModule line = some (define, mod) ∧
        r' = { r with mod := some mod, result := r.result.put mod (some Fields.empty) }) ∨
      ∃ mod t pro val, r.mod = some mod ∧ r.result.get mod = some t ∧ matchNumber line = some (pro, val) ∧
        r' = { r with result := r.result.put mod (some (t.put pro (some (.text val)))) } := by
  have hnumber : r.number line = some r' → (matchNumber line = none ∧ r' = r) ∨
      ∃ mod t pro val, r.mod = some mod ∧ r.result.get mod = some t ∧ matchNumber line = some (pro, val) ∧
        r' = { r with result := r.result.put mod (some (t.put pro (some (.text val)))) } := by
    intro h
    unfold Reader.number at h
    split at h
    · rename_i hmatch
      cases h
      exact Or.inl ⟨hmatch, rfl⟩
    · rename_i pro val hmatch
      obtain ⟨mod, hmod, h⟩ := Option.bind_eq_some_iff.1 h
      obtain ⟨t, ht, h⟩ := Option.bind_eq_some_iff.1 h
      cases h
      exact Or.inr ⟨mod, t, pro, val, hmod, ht, hmatch, rfl⟩
  unfold Reader.line at h
  split at h
  · rename_i name mod hmatch
    split at h
    · rename_i hname
      cases h
      exact Or.inr (Or.inl ⟨mod, by rw [hmatch, hname], rfl⟩)
    · exact (hnumber h).imp_right Or.inr
  · exact (hnumber h).imp_right Or.inr

theorem infix_of_matchNumber {pro : Str} {val : Numeral} (h : matchNumber line = some (pro, val)) : pro <:+: line := by
  obtain ⟨m, hm, hval⟩ := Option.bind_eq_some_iff.1 h
  obtain ⟨_, -, hval⟩ := Option.map_eq_some_iff.1 hval
  cases hval
  exact (matchPair_eq_some hm).1.trans (strip_part line)

/-- What every line without a text of a marker keeps holds of the section. -/
theorem readSection_keeps {P : Defines → Prop} (hP : ∀ line (r r' : Reader), d.isStart line = false →
      d.isEnd line = false → P r.result → r.line d.define line = some r' → P r'.result)
    {lines : List Str} (hr : P r.result) (h : readSection d lines r = some defines) : P defines := by
  induction lines generalizing r with
  | nil =>
    cases h
    exact hr
  | cons line lines ih =>
    rw [readSection] at h
    split at h
    · exact @ih { r with start := true } hr h
    · rename_i hstart
      split at h
      · cases h
        exact hr
      · rename_i hend
        split at h
        · exact ih hr h
        · obtain ⟨r', hline, h⟩ := Option.bind_eq_some_iff.1 h
          exact ih (hP line r r' (Bool.eq_false_iff.2 hstart) (Bool.eq_false_iff.2 hend) hr hline) h

theorem texts_line (hr : Each (·.isText) r.result) (h : r.line define line = some r') : Each (·.isText) r'.result := by
  rcases Reader.line_cases h with ⟨-, rfl⟩ | ⟨mod, -, rfl⟩ | ⟨mod, t, pro, val, -, ht, -, rfl⟩
  · exact hr
  · intro mod' pro' val' hval
    rw [num_put] at hval
    split at hval
    · cases hval
    · exact hr mod' pro' val' hval
  · intro mod' pro' val' hval
    rw [num_put_message ht] at hval
    split at hval
    · cases hval
      rfl
    · exact hr mod' pro' val' hval

end Lines

/-- The numbers of a section are texts. -/
theorem texts_parseDefines {mark : Mark} {file : Str} {defines : Defines} (h : parseDefines mark file = some defines) :
    Each (·.isText) defines :=
  readSection_keeps (fun _ _ _ _ _ hr hline => texts_line hr hline) each_empty h

/-! ### The lines of a proto file -/

/-- A line of a proto file defines a message, or none. -/
theorem parseLine_cases (mark : Mark) (proto : Fields Str Num) (line : Str) :
    parseLine mark proto line = proto ∨ ∃ name pro, matchPair [' '] isWord line = some (name, pro) ∧
      starts mark <+: pro ∧ parseLine mark proto line = proto.put pro (some (.int 0)) := by
  unfold parseLine
  split
  · split
    · rename_i name pro hmatch
      split
      · rename_i hstart
        exact Or.inr ⟨name, pro, hmatch, hstart, rfl⟩
      · exact Or.inl rfl
    · exact Or.inl rfl
  · exact Or.inl rfl

/-- What holds of a message that a line of a proto file defines holds of all that are read. -/
theorem each_parseProto {mark : Mark} {P : Str → Num → Prop}
    (hP : ∀ line name pro, matchPair [' '] isWord line = some (name, pro) → starts mark <+: pro → P pro (.int 0))
    {filelist : List (Str × Str)} {protos : Defines} (h : parseProto mark filelist = some protos) :
    ∀ mod pro val, num protos mod pro = some val → P pro val := by
  have hline : ∀ (proto : Fields Str Num) line, (∀ pro val, proto.get pro = some val → P pro val) →
      ∀ pro val, (parseLine mark proto line).get pro = some val → P pro val := by
    intro proto line hproto pro val hval
    rcases parseLine_cases mark proto line with hsame | ⟨name, pro', hmatch, hstart, hput⟩
    · exact hproto pro val (hsame ▸ hval)
    · rw [hput, Fields.get_put] at hval
      split at hval
      · rename_i hpro
        cases hval
        rw [hpro]
        exact hP line name pro' hmatch hstart
      · exact hproto pro val hval
  unfold parseProto at h
  split at h
  · cases h
  · cases h
    refine List.foldlRecOn (motive := fun protos : Defines => ∀ mod pro val, num protos mod pro = some val → P pro val)
      filelist _ (fun _ _ _ h => by cases h) fun result hresult file _ mod pro val hval => ?_
    rw [num_put] at hval
    split at hval
    · revert pro val
      refine List.foldlRecOn (motive := fun proto : Fields Str Num => ∀ pro val, proto.get pro = some val → P pro val)
        (readlines file.2) _ (fun _ _ h => by cases h) ?_
      exact fun proto hproto line _ => hline proto line hproto
    · exact hresult mod pro val hval

/-- The messages of the proto files have no numbers yet. -/
theorem zero_parseProto {mark : Mark} {filelist : List (Str × Str)} {protos : Defines}
    (h : parseProto mark filelist = some protos) : Each (· = .int 0) protos :=
  each_parseProto (P := fun _ val => val = .int 0) (fun _ _ _ _ _ => rfl) h

/-- `\w+`. -/
structure IsName (s : Str) : Prop where
  ne : s ≠ []
  word : s.all isWord

/-- Their names are words that start as the direction says. -/
theorem names_parseProto {mark : Mark} {filelist : List (Str × Str)} {protos : Defines}
    (h : parseProto mark filelist = some protos) :
    ∀ mod pro val, num protos mod pro = some val → IsName pro ∧ starts mark <+: pro := by
  refine each_parseProto (P := fun pro _ => IsName pro ∧ starts mark <+: pro) (fun line name pro hmatch hstart => ?_) h
  obtain ⟨-, -, hne, hword⟩ := matchPair_eq_some hmatch
  exact ⟨⟨hne, hword⟩, hstart⟩

end RoundGame.Shell
