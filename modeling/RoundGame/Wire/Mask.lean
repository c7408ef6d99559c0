import RoundGame.Lib.Hex
import RoundGame.Lib.Lua
import RoundGame.Lib.PMap

/-!
# The mask of a message

`net.Mask` copies the present fields of a message and adds the field `mask`: a hexadecimal numeral whose bit `n - 1`
is meant to say whether the field numbered `n` is present. The bits are collected four at a time, in the table `mMod`
of nibbles; the number of digits comes from the running maximum `iMax`, which is of the nibbles' values and not of
their places.

So the mask says which fields are present exactly when the place of every present field is at most the value of some
nibble (`mask_encodes_iff`): a field further up leaves no bit.
-/

namespace RoundGame.Wire

open Function Lua

/-! ## `M.Mask` -/

/-- The tables of `M.Mask` while it goes through the fields. -/
structure MaskScan where
  mRet : String → Option Val := fun _ => none
  mMod : Nat → Option Nat := fun _ => none
  iMax : Nat := 0

/-- One turn of the loop over the fields. -/
def scanField (mNameField : String → Option Nat) (s : MaskScan) (field : String × Val) : Except String MaskScan :=
  match mNameField field.1 with
  | none => .error field.1
  | some iNo =>
    let iMod := (iNo - 1) / 4
    let iRet := iNo % 4
    let iMask := (s.mMod iMod).getD 0
    let iMask := if 0 < iRet then iMask ||| 2 ^ (iRet - 1) else iMask ||| 2 ^ 3
    .ok { mRet := update s.mRet field.1 (some field.2)
          mMod := update s.mMod iMod (some iMask)
          iMax := max iMask s.iMax }

/-- The loop from `iMax` down to 0. -/
def MaskScan.sMask (s : MaskScan) : String :=
  (List.range (s.iMax + 1)).reverse.foldl
    (fun sMask i => sMask ++ String.ofList (Nat.toDigits 16 ((s.mMod i).getD 0))) ""

/-- `M.Mask`, with the numbers of the fields of the message and its present fields in the order of `pairs`. -/
def mask (mNameField : String → Option Nat) (mData : List (String × Val)) : Except String (String → Option Val) := do
  if mNameField "mask" ≠ some 1 then .error "assertion failed!"
  else
    let s ← mData.foldlM (scanField mNameField) {}
    return update s.mRet "mask" (some (.str s.sMask))

/-! ## Messages and their fields -/

/-- The fields of a message with their numbers; the field `mask` has number 1. -/
structure Message where
  fields : List (String × Nat)
  names : (fields.map Prod.fst).Nodup
  numbers : (fields.map Prod.snd).Nodup
  pos : ∀ field ∈ fields, 0 < field.2
  mask : ("mask", 1) ∈ fields

/-- `protobuf.name_field`. -/
def Message.nameField (sMessage : Message) (k : String) : Option Nat := sMessage.fields.lookup k

/-- The numbers of some fields. -/
def Message.numbersOf (sMessage : Message) (fields : List (String × Val)) : List Nat :=
  fields.filterMap fun field => sMessage.nameField field.1

/-- Present fields of a message, in the order in which `pairs` visits them. -/
structure Present (sMessage : Message) where
  mData : List (String × Val)
  nonempty : mData ≠ []
  keys : (mData.map Prod.fst).Nodup
  known : ∀ field ∈ mData, field.1 ∈ sMessage.fields.map Prod.fst

/-- Which of the fields numbered `4 * i + 1` to `4 * i + 4` are present, as a number. -/
def nibble (numbers : List Nat) (i : Nat) : Nat := Nat.ofBits fun r : Fin 4 => decide (4 * i + r + 1 ∈ numbers)

namespace Present

variable {sMessage : Message}

/-- The numbers of the present fields. -/
def numbers (t : Present sMessage) : List Nat := sMessage.numbersOf t.mData

/-- The place of every present field is at most the value of the nibble of some present field. -/
def WithinDigits (t : Present sMessage) : Prop :=
  ∀ n ∈ t.numbers, ∃ n' ∈ t.numbers, (n - 1) / 4 ≤ nibble t.numbers ((n' - 1) / 4)

instance (t : Present sMessage) : Decidable t.WithinDigits :=
  inferInstanceAs (Decidable (∀ n ∈ t.numbers, ∃ n' ∈ t.numbers, (n - 1) / 4 ≤ nibble t.numbers ((n' - 1) / 4)))

end Present

namespace Message

variable {sMessage : Message} {k : String} {n : Nat}

theorem nameField_eq_some : sMessage.nameField k = some n ↔ (k, n) ∈ sMessage.fields :=
  PMap.lookup_eq_some_iff_mem sMessage.names

theorem nameField_mask : sMessage.nameField "mask" = some 1 := nameField_eq_some.2 sMessage.mask

theorem nameField_pos (h : sMessage.nameField k = some n) : 0 < n := sMessage.pos _ (nameField_eq_some.1 h)

theorem known_iff : k ∈ sMessage.fields.map Prod.fst ↔ ∃ n, sMessage.nameField k = some n := by
  simp only [nameField_eq_some, List.mem_map, Prod.exists, exists_and_right, exists_eq_right]

/-- A number belongs to one field only. -/
theorem nameField_inj {k' : String} (h : sMessage.nameField k = some n) (h' : sMessage.nameField k' = some n) :
    k = k' := by
  have hinj := List.inj_on_of_nodup_map sMessage.numbers (nameField_eq_some.1 h) (nameField_eq_some.1 h') rfl
  exact congrArg Prod.fst hinj

end Message

namespace Present

variable {sMessage : Message} (t : Present sMessage)

theorem mem_numbers {n : Nat} : n ∈ t.numbers ↔ ∃ k ∈ t.mData.map Prod.fst, sMessage.nameField k = some n := by
  simp [numbers, Message.numbersOf]

theorem pos_of_mem {n : Nat} (h : n ∈ t.numbers) : 0 < n := by
  obtain ⟨k, -, hk⟩ := t.mem_numbers.1 h
  exact Message.nameField_pos hk

/-- A field is present iff its number is. -/
theorem mem_keys {k : String} {n : Nat} (hk : sMessage.nameField k = some n) :
    k ∈ t.mData.map Prod.fst ↔ n ∈ t.numbers := by
  rw [t.mem_numbers]
  constructor
  · exact fun h => ⟨k, h, hk⟩
  · rintro ⟨k', h, hk'⟩
    rwa [Message.nameField_inj hk hk']

end Present

/-- What the result of `M.Mask` should be: the mask has bit `n - 1` set exactly for the numbers `n` of the present
fields, and every other field keeps its value. -/
structure Encodes {sMessage : Message} (t : Present sMessage) (mRet : String → Option Val) : Prop where
  kept : ∀ field ∈ t.mData, field.1 ≠ "mask" → mRet field.1 = some field.2
  bits : ∃ sMask, mRet "mask" = some (.str sMask) ∧ Hex.IsNumeral sMask.toList ∧
    ∀ n, 0 < n → ((Hex.value sMask.toList).testBit (n - 1) = true ↔ n ∈ t.numbers)

/-- The fields whose bits a mask has set. -/
def maskedFields (sMessage : Message) : Option Val → List String
  | some (.str sMask) =>
    (sMessage.fields.filter fun field => (Hex.value sMask.toList).testBit (field.2 - 1)).map Prod.fst
  | _ => []

/-- A right mask can be read back. -/
theorem Encodes.mem_maskedFields {sMessage : Message} {t : Present sMessage} {mRet : String → Option Val}
    (h : Encodes t mRet) {k : String} : k ∈ maskedFields sMessage (mRet "mask") ↔ k ∈ t.mData.map Prod.fst := by
  obtain ⟨sMask, hs, -, hbits⟩ := h.bits
  rw [hs]
  simp only [maskedFields, List.mem_map, List.mem_filter, Prod.exists, exists_and_right, exists_eq_right]
  constructor
  · rintro ⟨n, hf, hbit⟩
    have hk : sMessage.nameField k = some n := Message.nameField_eq_some.2 hf
    rw [hbits n (Message.nameField_pos hk), ← t.mem_keys hk] at hbit
    exact List.mem_map.1 hbit |>.elim fun f hf => ⟨f.2, hf.2 ▸ hf.1⟩
  · rintro ⟨v, hv⟩
    have hmem : k ∈ t.mData.map Prod.fst := List.mem_map.2 ⟨(k, v), hv, rfl⟩
    obtain ⟨n, hk⟩ := Message.known_iff.1 (t.known _ hv)
    exact ⟨n, Message.nameField_eq_some.1 hk, (hbits n (Message.nameField_pos hk)).2 ((t.mem_keys hk).1 hmem)⟩

/-! ## The nibbles -/

theorem nibble_lt (numbers : List Nat) (i : Nat) : nibble numbers i < 16 := Nat.ofBits_lt_two_pow _

theorem testBit_nibble (numbers : List Nat) (i r : Nat) :
    (nibble numbers i).testBit r = decide (r < 4 ∧ 4 * i + r + 1 ∈ numbers) := by
  unfold nibble
  by_cases hr : r < 4
  · rw [Nat.testBit_ofBits_lt _ r hr]
    simp [hr]
  · rw [Nat.testBit_ofBits_ge _ r (Nat.le_of_not_lt hr)]
    simp [hr]

/-- One more field sets one bit of its nibble. -/
theorem nibble_concat (numbers : List Nat) {n : Nat} (hn : 0 < n) (i : Nat) :
    nibble (numbers ++ [n]) i =
      if i = (n - 1) / 4 then nibble numbers i ||| 2 ^ ((n - 1) % 4) else nibble numbers i := by
  apply Nat.eq_of_testBit_eq
  intro r
  split
  · rename_i hi
    have hbit : (4 * i + r + 1 = n ∧ r < 4) ↔ (n - 1) % 4 = r := by omega
    rw [Nat.testBit_or, testBit_nibble, testBit_nibble, Nat.testBit_two_pow]
    simp only [List.mem_append, List.mem_singleton, ← hbit]
    grind
  · rename_i hi
    have hbit : ¬ (4 * i + r + 1 = n ∧ r < 4) := by omega
    rw [testBit_nibble, testBit_nibble]
    simp only [List.mem_append, List.mem_singleton]
    grind

/-! ## The loop over the fields -/

section Scan

variable (sMessage : Message)

/-- The tables after the loop has gone through the fields `done`. -/
structure Scanned (done : List (String × Val)) (s : MaskScan) : Prop where
  mRet : ∀ field ∈ done, s.mRet field.1 = some field.2
  mMod : ∀ i, (s.mMod i).getD 0 = nibble (sMessage.numbersOf done) i
  le_iMax : ∀ i, nibble (sMessage.numbersOf done) i ≤ s.iMax
  iMax : ∃ i, s.iMax = nibble (sMessage.numbersOf done) i

variable {sMessage}

theorem scanned_nil : Scanned sMessage [] {} where
  mRet := fun _ h => absurd h (List.not_mem_nil)
  mMod := fun _ => rfl
  le_iMax := fun _ => Nat.le_refl 0
  iMax := ⟨0, rfl⟩

section Field

variable {done : List (String × Val)} {s : MaskScan} {field : String × Val} {iNo : Nat}

/-- The nibbles with one more field. -/
theorem nibble_field (hno : sMessage.nameField field.1 = some iNo) (i : Nat) :
    nibble (sMessage.numbersOf (done ++ [field])) i = if i = (iNo - 1) / 4
      then nibble (sMessage.numbersOf done) i ||| 2 ^ ((iNo - 1) % 4) else nibble (sMessage.numbersOf done) i := by
  have hnum : sMessage.numbersOf (done ++ [field]) = sMessage.numbersOf done ++ [iNo] := by
    simp [Message.numbersOf, hno]
  rw [hnum]
  exact nibble_concat (sMessage.numbersOf done) (Message.nameField_pos hno) i

theorem nibble_le_field (hno : sMessage.nameField field.1 = some iNo) (i : Nat) :
    nibble (sMessage.numbersOf done) i ≤ nibble (sMessage.numbersOf (done ++ [field])) i := by
  rw [nibble_field hno]
  split
  · exact Nat.left_le_or
  · exact Nat.le_refl _

/-- Both branches set bit `(iNo - 1) % 4` of the nibble. -/
theorem Scanned.iMask (h : Scanned sMessage done s) (hno : sMessage.nameField field.1 = some iNo) :
    (if 0 < iNo % 4 then (s.mMod ((iNo - 1) / 4)).getD 0 ||| 2 ^ (iNo % 4 - 1)
      else (s.mMod ((iNo - 1) / 4)).getD 0 ||| 2 ^ 3) =
        nibble (sMessage.numbersOf (done ++ [field])) ((iNo - 1) / 4) := by
  have hpos : 0 < iNo := Message.nameField_pos hno
  rw [nibble_field hno, if_pos rfl, h.mMod]
  split
  · rw [show (iNo - 1) % 4 = iNo % 4 - 1 by omega]
  · rw [show (iNo - 1) % 4 = 3 by omega]

/-- The running maximum is the value of a nibble. -/
theorem Scanned.max_eq (h : Scanned sMessage done s) (hno : sMessage.nameField field.1 = some iNo) :
    ∃ i, max (nibble (sMessage.numbersOf (done ++ [field])) ((iNo - 1) / 4)) s.iMax =
      nibble (sMessage.numbersOf (done ++ [field])) i := by
  obtain ⟨i, hi⟩ := h.iMax
  rcases Nat.le_total s.iMax (nibble (sMessage.numbersOf (done ++ [field])) ((iNo - 1) / 4)) with hmax | hmax
  · exact ⟨(iNo - 1) / 4, Nat.max_eq_left hmax⟩
  · by_cases hn : i = (iNo - 1) / 4
    · -- the nibble that had the largest value is the one written
      refine ⟨(iNo - 1) / 4, Nat.max_eq_left ?_⟩
      rw [hi, hn]
      exact nibble_le_field hno _
    · exact ⟨i, (Nat.max_eq_right hmax).trans (by rw [hi, nibble_field hno, if_neg hn])⟩

/-- One turn of the loop, for a field that was not yet there. -/
theorem Scanned.turn (h : Scanned sMessage done s) (hno : sMessage.nameField field.1 = some iNo)
    (hnew : field.1 ∉ done.map Prod.fst) :
    ∃ s', scanField sMessage.nameField s field = .ok s' ∧ Scanned sMessage (done ++ [field]) s' := by
  refine ⟨_, by unfold scanField; rw [hno], ?_⟩
  simp only [h.iMask hno]
  constructor
  case mRet =>
    intro f hf
    rcases List.mem_append.1 hf with hf | hf
    · have hne : f.1 ≠ field.1 := fun he => hnew (he ▸ List.mem_map.2 ⟨f, hf, rfl⟩)
      exact (update_of_ne hne _ _).trans (h.mRet f hf)
    · rw [List.mem_singleton.1 hf]
      exact update_self _ _ _
  case mMod =>
    intro i
    dsimp only
    by_cases hi : i = (iNo - 1) / 4
    · rw [hi, update_self, Option.getD_some]
    · rw [update_of_ne hi, h.mMod, nibble_field hno, if_neg hi]
  case le_iMax =>
    intro i
    by_cases hi : i = (iNo - 1) / 4
    · rw [hi]
      exact Nat.le_max_left _ _
    · rw [nibble_field hno, if_neg hi]
      exact (h.le_iMax i).trans (Nat.le_max_right _ _)
  case iMax => exact h.max_eq hno

end Field

theorem scanned_all {done : List (String × Val)} {s : MaskScan} (h : Scanned sMessage done s) :
    ∀ {l : List (String × Val)}, ((done ++ l).map Prod.fst).Nodup →
      (∀ field ∈ l, field.1 ∈ sMessage.fields.map Prod.fst) →
      ∃ s', l.foldlM (scanField sMessage.nameField) s = .ok s' ∧ Scanned sMessage (done ++ l) s' := by
  intro l
  induction l generalizing done s with
  | nil => exact fun _ _ => ⟨s, rfl, by rwa [List.append_nil]⟩
  | cons field l ih =>
    intro hnd hknown
    obtain ⟨iNo, hno⟩ := Message.known_iff.1 (hknown field List.mem_cons_self)
    have hnew : field.1 ∉ done.map Prod.fst := by
      rw [List.map_append, List.nodup_append] at hnd
      exact fun hm => hnd.2.2 _ hm _ List.mem_cons_self rfl
    obtain ⟨u, hu, hsu⟩ := h.turn hno hnew
    obtain ⟨s', hs', hsc⟩ := ih hsu (by simpa using hnd) fun f hf => hknown f (List.mem_cons_of_mem _ hf)
    refine ⟨s', ?_, by simpa using hsc⟩
    rw [List.foldlM_cons, hu]
    exact hs'

/-- The digits from `iMax` down to 0. -/
theorem Scanned.sMask {done : List (String × Val)} {s : MaskScan} (h : Scanned sMessage done s) :
    s.sMask.toList = Hex.numeral (nibble (sMessage.numbersOf done)) (s.iMax + 1) := by
  have hjoin : ∀ (l : List Nat) (sMask : String),
      (l.foldl (fun sMask i => sMask ++ String.ofList (Nat.toDigits 16 ((s.mMod i).getD 0))) sMask).toList =
        sMask.toList ++ l.map fun i => Nat.digitChar (nibble (sMessage.numbersOf done) i) := by
    intro l
    induction l with
    | nil => simp
    | cons i l ih =>
      intro sMask
      rw [List.foldl_cons, ih, h.mMod, Nat.toDigits_of_lt_base (nibble_lt _ _)]
      simp
  exact hjoin _ ""

end Scan

section Result

variable {sMessage : Message} (t : Present sMessage)

theorem mask_ok : ∃ s, mask sMessage.nameField t.mData = .ok (update s.mRet "mask" (some (.str s.sMask))) ∧
    Scanned sMessage t.mData s := by
  obtain ⟨s, hs, hsc⟩ := scanned_all scanned_nil t.keys t.known
  refine ⟨s, ?_, hsc⟩
  unfold mask
  rw [if_neg (not_not_intro Message.nameField_mask), hs]
  rfl

/-- The bits of the mask: those of the fields whose digit is among the digits written. -/
theorem Scanned.testBit {s : MaskScan} (h : Scanned sMessage t.mData s) {n : Nat} (hn : 0 < n) :
    (Hex.value s.sMask.toList).testBit (n - 1) = true ↔ (n - 1) / 4 ≤ s.iMax ∧ n ∈ t.numbers := by
  have hplace : 4 * ((n - 1) / 4) + (n - 1) % 4 + 1 = n := by omega
  have hlt : (n - 1) % 4 < 4 := Nat.mod_lt _ (by decide)
  rw [h.sMask, Hex.testBit_value_numeral (nibble_lt _), testBit_nibble, hplace, Bool.and_eq_true, decide_eq_true_eq,
    decide_eq_true_eq, Nat.lt_succ_iff]
  exact and_congr_right fun _ => ⟨And.right, fun hmem => ⟨hlt, hmem⟩⟩

theorem Scanned.withinDigits_iff {s : MaskScan} (h : Scanned sMessage t.mData s) :
    t.WithinDigits ↔ ∀ n ∈ t.numbers, (n - 1) / 4 ≤ s.iMax := by
  constructor
  · intro hw n hn
    obtain ⟨n', -, hle⟩ := hw n hn
    exact hle.trans (h.le_iMax _)
  · intro hw n hn
    obtain ⟨i, hi⟩ := h.iMax
    by_cases hz : nibble t.numbers i = 0
    · -- only an empty table has no nibble but 0
      have hle : (n - 1) / 4 ≤ 0 := (hw n hn).trans (Nat.le_of_eq (hi.trans hz))
      exact ⟨n, hn, hle.trans (Nat.zero_le _)⟩
    · obtain ⟨r, hr⟩ := Nat.exists_testBit_of_ne_zero hz
      rw [testBit_nibble, decide_eq_true_eq] at hr
      refine ⟨4 * i + r + 1, hr.2, ?_⟩
      rw [show (4 * i + r + 1 - 1) / 4 = i by omega]
      exact (hw n hn).trans (Nat.le_of_eq hi)

theorem encodes_iff {s : MaskScan} (h : Scanned sMessage t.mData s) :
    Encodes t (update s.mRet "mask" (some (.str s.sMask))) ↔ t.WithinDigits := by
  rw [h.withinDigits_iff]
  constructor
  · rintro ⟨-, sMask, hs, -, hbits⟩ n hn
    rw [update_self] at hs
    cases hs
    have hpos : 0 < n := t.pos_of_mem hn
    exact ((h.testBit t hpos).1 ((hbits n hpos).2 hn)).1
  · intro hw
    refine ⟨?_, s.sMask, update_self _ _ _, ?_, ?_⟩
    · intro field hf hne
      rw [update_of_ne hne]
      exact h.mRet field hf
    · rw [h.sMask]
      exact Hex.isNumeral_numeral (nibble_lt _) _
    · intro n hn
      rw [h.testBit t hn]
      exact ⟨And.right, fun hmem => ⟨hw n hmem, hmem⟩⟩

/-- The mask says exactly which fields are present iff the place of every present field is at most the value of the
nibble of some present field. Such masks differ for different sets of fields, and can be read back. -/
theorem mask_encodes_iff (sMessage : Message) :
    (∀ t : Present sMessage,
      (∃ mRet, mask sMessage.nameField t.mData = .ok mRet ∧ Encodes t mRet) ↔ t.WithinDigits) ∧
    (∀ (t t' : Present sMessage) (mRet mRet' : String → Option Val), t.WithinDigits → t'.WithinDigits →
      mask sMessage.nameField t.mData = .ok mRet → mask sMessage.nameField t'.mData = .ok mRet' →
      mRet "mask" = mRet' "mask" → ∀ k, k ∈ t.mData.map Prod.fst ↔ k ∈ t'.mData.map Prod.fst) ∧
    ∃ unMask : Option Val → List String, ∀ (t : Present sMessage) (mRet : String → Option Val), t.WithinDigits →
      mask sMessage.nameField t.mData = .ok mRet → ∀ k, k ∈ unMask (mRet "mask") ↔ k ∈ t.mData.map Prod.fst := by
  have hread : ∀ (t : Present sMessage) (mRet : String → Option Val), t.WithinDigits →
      mask sMessage.nameField t.mData = .ok mRet → ∀ k, k ∈ maskedFields sMessage (mRet "mask") ↔
        k ∈ t.mData.map Prod.fst := by
    intro t mRet hw hm k
    obtain ⟨s, hs, hsc⟩ := mask_ok t
    rw [hs] at hm
    cases hm
    exact ((encodes_iff t hsc).2 hw).mem_maskedFields
  refine ⟨?_, ?_, maskedFields sMessage, hread⟩
  · intro t
    obtain ⟨s, hs, hsc⟩ := mask_ok t
    rw [← encodes_iff t hsc, hs]
    constructor
    · rintro ⟨mRet, hm, henc⟩
      cases hm
      exact henc
    · exact fun henc => ⟨_, rfl, henc⟩
  · intro t t' mRet mRet' hw hw' hm hm' heq k
    rw [← hread t mRet hw hm k, heq, hread t' mRet' hw' hm' k]

end Result

/-- `PlayerProp` of `base.proto`. -/
def playerProp : Message where
  fields := [("mask", 1), ("pid", 2), ("name", 3), ("exp", 4), ("grade", 5), ("school", 6), ("sex", 7), ("icon", 8),
    ("phy_attack", 9), ("phy_defense", 10), ("mag_attack", 11), ("mag_defense", 12), ("cure_power", 13), ("speed", 14),
    ("seal_hit_ratio", 15), ("res_seal_hit_ratio", 16), ("phy_critical_ratio", 17), ("res_phy_critical_ratio", 18),
    ("mag_critical_ratio", 19), ("res_mag_critical_ratio", 20), ("hp", 21), ("max_hp", 22), ("mp", 23), ("max_mp", 24)]
  names := by decide
  numbers := by decide
  pos := by decide
  mask := by decide

/-- A refresh of the hit points alone. -/
def onlyHp : Present playerProp where
  mData := [("hp", .num 100)]
  nonempty := by decide
  keys := by decide
  known := by decide

/-- The mask of the hit points alone is `"00"`. -/
theorem not_mask_encodes : ¬ ∃ mRet, mask playerProp.nameField onlyHp.mData = .ok mRet ∧ Encodes onlyHp mRet := by
  rintro ⟨mRet, hm, -, sMask, hs, -, hbits⟩
  have hzero : mask playerProp.nameField onlyHp.mData =
      .ok (update (update (fun _ => none) "hp" (some (.num 100))) "mask" (some (.str "00"))) := rfl
  rw [hzero] at hm
  cases hm
  rw [update_self] at hs
  cases hs
  have hbit := (hbits 21 (by decide)).2 (by decide)
  revert hbit
  decide

end RoundGame.Wire
