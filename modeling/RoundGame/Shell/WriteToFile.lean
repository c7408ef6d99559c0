import RoundGame.Shell.SetProtoNum

/-!
# The section that is written

`write_to_file` keeps the lines of the file up to the start marker of a direction and those from the end marker on, and
writes the modules between, in the order of their blocks (`writeToFile_eq`). The comparison of two messages of a module
is never negative, so `sorted` leaves them as the dictionary lists them (`sorted_cmp`).
-/

namespace RoundGame.Shell

open Text

/-! ## `write_to_file` -/

/-- The lines up to the start marker and those from the end marker on, with the flags. -/
structure Around where
  starts : List Str := []
  ends : List Str := []
  start_flag : Bool := false
  end_flag : Bool := false

def Around.line (d : TmpDict) (s : Around) (line : Str) : Around :=
  let s := if !s.start_flag then { s with starts := s.starts ++ [line] } else s
  let s :=
    if d.isStart line then { s with start_flag := true }
    else if d.isEnd line then { s with end_flag := true } else s
  if s.end_flag then { s with ends := s.ends ++ [line] } else s

/-- `start2mod[int(val)/1000] = mod`. -/
def startTurn (mod : Str) (t : Fields Nat Str) (e : Str × Num) : Fields Nat Str :=
  if e.2 ≠ .int 0 then t.put (e.2.toInt / 1000) (some mod) else t

/-- `start2mod`: a module for the block of each of its numbers. -/
def start2mod (order : Order) (defines : Defines) : Fields Nat Str :=
  let module (t : Fields Nat Str) (e : Str × Fields Str Num) : Fields Nat Str :=
    (order.items (.blocksOf e.1) e.2).foldl (startTurn e.1) t
  (order.items .blocks defines).foldl module Fields.empty

/-- `x < y`: an integer is less than any text. -/
def Num.lt : Num → Num → Bool
  | .int m, .int n => decide (m < n)
  | .int _, .text _ => true
  | .text _, .int _ => false
  | .text s, .text t => decide (s.digits < t.digits)

/-- The comparison of two messages, a truth value that is taken for the sign of a comparison. -/
def cmp (pro_defines : Fields Str Num) (x y : Str) : Int :=
  match pro_defines.get x, pro_defines.get y with
  | some val, some val' => if val.lt val' then 1 else 0
  | _, _ => 0

/-- `sorted`: stable, and one entry is less than another when the comparison is negative. -/
def sorted (cmp : Str → Str → Int) (l : List Str) : List Str := l.mergeSort fun x y => decide (¬ cmp y x < 0)

/-- The entries of `middle`. -/
def conlist (order : Order) (define mod : Str) (pro_defines : Fields Str Num) : List Str :=
  let lproto := sorted (cmp pro_defines) ((order.items (.keys mod) pro_defines).map Prod.fst)
  let line (pro : Str) : Str := "    ".toList ++ pro ++ " = ".toList ++ ((pro_defines.get pro).map Num.str).getD []
    ++ [',']
  [define ++ ['.'] ++ mod ++ " = \x7b".toList] ++ lproto.map line ++ ["\x7d\n".toList]

/-- The modules that are written, in the order of their blocks. -/
def written (order : Order) (defines : Defines) : List (Str × Fields Str Num) :=
  let t := start2mod order defines
  (t.keys.mergeSort (· ≤ ·)).filterMap fun i => (t.get i).bind fun mod => (defines.get mod).map fun u => (mod, u)

/-- The text that is written to the file. -/
def writeToFile (order : Order) (mark : Mark) (file : Str) (defines : Defines) : Str :=
  let s := (readlines file).foldl (Around.line (tmpDict mark)) {}
  let middle := (written order defines).map fun e => ['\n'].intercalate (conlist order (tmpDict mark).define e.1 e.2)
  s.starts.flatten ++ ['\n'].intercalate middle ++ s.ends.flatten

def processProto (order : Order) (mark : Mark) (file : Str) (filelist : List (Str × Str)) : Option Str := do
  let defines ← parseDefines mark file
  let protos ← parseProto mark filelist
  return writeToFile order mark file (setProtoNum order (merge order defines protos))

/-! ## The lines of the new file -/

def moduleLine (define mod : Str) : Str := define ++ ['.'] ++ mod ++ " = \x7b\n".toList

def messageLine (pro : Str) (val : Num) : Str := "    ".toList ++ pro ++ " = ".toList ++ val.str ++ ",\n".toList

theorem messageLine_eq (pro : Str) (val : Num) :
    messageLine pro val = "    ".toList ++ pro ++ " = ".toList ++ val.str ++ ",\n".toList := rfl

/-- The lines of a module. -/
def moduleLines (order : Order) (define mod : Str) (pro_defines : Fields Str Num) : List Str :=
  moduleLine define mod :: (order.items (.keys mod) pro_defines).map (fun e => messageLine e.1 e.2) ++ ["\x7d\n".toList]

/-- The lines of the section. -/
def writtenLines (order : Order) (define : Str) (defines : Defines) : List Str :=
  [['\n']].intercalate ((written order defines).map fun e => moduleLines order define e.1 e.2)

/-- The comparison is never negative, so the order of the messages stays as it is. -/
theorem sorted_cmp (pro_defines : Fields Str Num) (l : List Str) : sorted (cmp pro_defines) l = l := by
  refine List.mergeSort_of_pairwise (List.pairwise_of_forall fun x y => decide_eq_true ?_)
  unfold cmp
  split
  · split <;> decide
  · decide

theorem flatten_moduleLines (order : Order) (define mod : Str) (pro_defines : Fields Str Num) :
    (moduleLines order define mod pro_defines).flatten = ['\n'].intercalate (conlist order define mod pro_defines) := by
  have hitems : (order.items (.keys mod) pro_defines).map (fun e => messageLine e.1 e.2) =
      (order.items (.keys mod) pro_defines).map fun e => "    ".toList ++ e.1 ++ " = ".toList ++
        ((pro_defines.get e.1).map Num.str).getD [] ++ [','] ++ ['\n'] := by
    refine List.map_congr_left fun e he => ?_
    rw [(order.mem_items (.keys mod) pro_defines).1 he]
    simp [messageLine_eq]
  unfold conlist moduleLines
  rw [intercalate_concat, sorted_cmp, hitems]
  simp [moduleLine, Function.comp_def]

theorem flatten_writtenLines (order : Order) (define : Str) (defines : Defines) :
    (writtenLines order define defines).flatten =
      ['\n'].intercalate ((written order defines).map fun e => ['\n'].intercalate (conlist order define e.1 e.2)) := by
  unfold writtenLines
  rw [flatten_intercalate, List.map_map]
  simp only [Function.comp_def, flatten_moduleLines]

/-- The lines of a file around the section of a direction: its start marker is the first line with one of the texts of
the markers, its end marker the next line with the text of the end marker only. -/
structure IsSection (d : TmpDict) (pre : List Str) (first : Str) (body : List Str) (last : Str) : Prop where
  before : ∀ l ∈ pre, d.isStart l = false ∧ d.isEnd l = false
  opens : d.isStart first
  inside : ∀ l ∈ body, d.isStart l = false → d.isEnd l = false
  closes : d.isStart last = false ∧ d.isEnd last

section Around

variable {d : TmpDict} {pre body post : List Str} {first last : Str}

theorem around_before (h : ∀ l ∈ pre, d.isStart l = false ∧ d.isEnd l = false) (s : Around) (hs : s.start_flag = false)
    (he : s.end_flag = false) : pre.foldl (Around.line d) s = { s with starts := s.starts ++ pre } := by
  induction pre generalizing s with
  | nil => rw [List.append_nil]; rfl
  | cons l pre ih =>
    obtain ⟨hstart, hend⟩ := h l List.mem_cons_self
    have hline : s.line d l = { s with starts := s.starts ++ [l] } := by simp [Around.line, hs, he, hstart, hend]
    have hrest : ∀ l ∈ pre, d.isStart l = false ∧ d.isEnd l = false := fun l hl => h l (List.mem_cons_of_mem _ hl)
    rw [List.foldl_cons, hline, ih hrest { s with starts := s.starts ++ [l] } hs he, List.append_assoc,
      List.singleton_append]

theorem around_inside (h : ∀ l ∈ body, d.isStart l = false → d.isEnd l = false) (s : Around) (hs : s.start_flag)
    (he : s.end_flag = false) : body.foldl (Around.line d) s = s := by
  obtain ⟨starts, ends, start_flag, end_flag⟩ := s
  subst hs he
  induction body with
  | nil => rfl
  | cons l body ih =>
    have hline : Around.line d ⟨starts, ends, true, false⟩ l = ⟨starts, ends, true, false⟩ := by
      cases hstart : d.isStart l with
      | true => simp [Around.line, hstart]
      | false => simp [Around.line, hstart, h l List.mem_cons_self hstart]
    rw [List.foldl_cons, hline]
    exact ih fun l hl => h l (List.mem_cons_of_mem _ hl)

theorem around_after (d : TmpDict) (post : List Str) (s : Around) (hs : s.start_flag) (he : s.end_flag) :
    post.foldl (Around.line d) s = { s with ends := s.ends ++ post } := by
  obtain ⟨starts, ends, start_flag, end_flag⟩ := s
  subst hs he
  induction post generalizing ends with
  | nil => rw [List.append_nil]; rfl
  | cons l post ih =>
    have hline : Around.line d ⟨starts, ends, true, true⟩ l = ⟨starts, ends ++ [l], true, true⟩ := by
      simp [Around.line]
    rw [List.foldl_cons, hline, ih, List.append_assoc, List.singleton_append]

theorem around_section (h : IsSection d pre first body last) :
    (pre ++ first :: (body ++ last :: post)).foldl (Around.line d) {} =
      { starts := pre ++ [first], ends := last :: post, start_flag := true, end_flag := true } := by
  have hfirst : Around.line d { starts := pre } first = { starts := pre ++ [first], start_flag := true } := by
    simp [Around.line, h.opens]
  have hlast : Around.line d { starts := pre ++ [first], start_flag := true } last =
      { starts := pre ++ [first], ends := [last], start_flag := true, end_flag := true } := by
    simp [Around.line, h.closes]
  have hpre : pre.foldl (Around.line d) {} = { starts := pre } := around_before h.before {} rfl rfl
  have hpost := around_after d post
    { starts := pre ++ [first], ends := [last], start_flag := true, end_flag := true } rfl rfl
  rw [List.foldl_append, hpre, List.foldl_cons, hfirst, List.foldl_append, around_inside h.inside _ rfl rfl,
    List.foldl_cons, hlast, hpost, List.singleton_append]

end Around

/-- The text up to the start marker and that from the end marker on stay. -/
theorem writeToFile_eq (order : Order) {mark : Mark} {file : Str} {pre body post : List Str} {first last : Str}
    (hlines : readlines file = pre ++ first :: (body ++ last :: post))
    (h : IsSection (tmpDict mark) pre first body last) (defines : Defines) : writeToFile order mark file defines =
      (pre ++ [first]).flatten ++ (writtenLines order (tmpDict mark).define defines).flatten ++
        (last :: post).flatten := by
  unfold writeToFile
  rw [hlines, around_section h, flatten_writtenLines]

end RoundGame.Shell
