import RoundGame.World.BlockOps
import RoundGame.World.World

/-!
# The blocks of a player that has just been loaded

What the blocks of an online player save before anything has happened to them, against the record that gamedb has sent.

- A `Save` writes the fields that `Load` has read, so a base or an active block saves what was stored iff that was a
  table without other fields (`content_base_iff`, `content_active_iff`).
- A bag saves what was stored iff its `itemdata` was a table, whose keys are decimals of positions, and each of whose
  entries `LoadItem` makes an item of and has no other fields than an item (`content_items_iff`).
- `Restorable record`: all of this for the record of a player (`content_loaded_iff`).
-/

namespace RoundGame.World

open Function Lua

/-! ## Base and active -/

theorem content_base_iff (iPid : Pid) (mRole : MRole) (m : Val) :
    (safeCall (CBaseCtrl.load m) (CBaseCtrl.new iPid mRole)).save.content = m.content ↔
      m.OnlyFields ["school", "sex", "icon", "model"] := by
  rw [← Val.content_fields_iff]
  cases m with
  | tbl entries => rfl
  | nil => exact iff_of_false (fun h => by cases congrFun h []) fun h => by cases congrFun h []
  | bool b => cases b <;> exact iff_of_false (fun h => by cases congrFun h []) fun h => by cases congrFun h []
  | num i => exact iff_of_false (fun h => by cases congrFun h []) fun h => by cases congrFun h []
  | str s => exact iff_of_false (fun h => by cases congrFun h []) fun h => by cases congrFun h []

theorem content_active_iff (iPid : Pid) (m : Val) :
    (safeCall (CActiveCtrl.load m) (CActiveCtrl.new iPid)).save.content = m.content ↔
      m.OnlyFields ["exp", "grade"] := by
  rw [← Val.content_fields_iff]
  cases m with
  | tbl entries => rfl
  | nil => exact iff_of_false (fun h => by cases congrFun h []) fun h => by cases congrFun h []
  | bool b => cases b <;> exact iff_of_false (fun h => by cases congrFun h []) fun h => by cases congrFun h []
  | num i => exact iff_of_false (fun h => by cases congrFun h []) fun h => by cases congrFun h []
  | str s => exact iff_of_false (fun h => by cases congrFun h []) fun h => by cases congrFun h []

/-! ## Items -/

/-- What the module of an item is found to be: whether it has a `New`. -/
def ItemEnv.moduleOf (env : ItemEnv) (iSid : Int) (belong : String) : Except String Bool :=
  let sPath := "item/" ++ belong ++ "/i" ++ toString iSid
  if env.fileExists sPath then env.importModule sPath
  else env.importModule ("item." ++ belong ++ "." ++ belong ++ "base")

/-- `LoadItem` makes an item of a stored one: a table with a configured `sid`, whose module has a `New`. -/
def ItemEnv.Loads (env : ItemEnv) (mItem : Val) : Prop :=
  mItem.leaf = .table ∧ ∃ iSid belong, mItem.entry (.str "sid") = .num iSid ∧ env.belong iSid = some belong ∧
    env.moduleOf iSid belong = .ok true

/-- What an item saves that was loaded from `mItem`. -/
def savedItem (mItem : Val) : Val := Val.fields (["data", "sid", "amount"].map fun s => (s, mItem.entry (.str s)))

section Items

variable {env : ItemEnv}

theorem exec_createItem_of_moduleOf {iSid : Int} {belong : String} (hb : env.belong iSid = some belong)
    (hm : env.moduleOf iSid belong = .ok true) (g : CItemMgr) :
    (CItemMgr.createItem env (.num iSid)).exec g = (CItem.new (.num iSid)).exec g := by
  unfold CItemMgr.createItem CItemMgr.getConfigBySid
  simp only [hb]
  show (LuaM.lift (env.moduleOf iSid belong) >>= _ : LuaM CItemMgr CItem).exec g = _
  rw [LuaM.exec_bind, LuaM.exec_lift, hm]
  rfl

theorem createItem_raises {iSid : Val}
    (h : ¬ ∃ i belong, iSid = .num i ∧ env.belong i = some belong ∧ env.moduleOf i belong = .ok true) (g : CItemMgr) :
    ∃ e, (CItemMgr.createItem env iSid).exec g = (.error e, g) := by
  cases iSid with
  | num i =>
    unfold CItemMgr.createItem CItemMgr.getConfigBySid
    cases hb : env.belong i with
    | none =>
      simp only [hb]
      exact ⟨_, rfl⟩
    | some belong =>
      simp only [hb]
      show ∃ e, (LuaM.lift (env.moduleOf i belong) >>= _ : LuaM CItemMgr CItem).exec g = _
      rw [LuaM.exec_bind, LuaM.exec_lift]
      cases hm : env.moduleOf i belong with
      | error e => exact ⟨e, rfl⟩
      | ok b =>
        cases b with
        | false => exact ⟨_, rfl⟩
        | true => exact absurd ⟨i, belong, rfl, hb, hm⟩ h
  | nil => exact ⟨_, rfl⟩
  | bool b => exact ⟨_, rfl⟩
  | str s => exact ⟨_, rfl⟩
  | tbl entries => exact ⟨_, rfl⟩

/-- An item that is loaded saves the fields that were stored. -/
theorem exec_loadItem (env : ItemEnv) (mItem : Val) (g : CItemMgr) :
    (env.Loads mItem ∧ ∃ o g', (CItemMgr.loadItem env mItem).exec g = (.ok o, g') ∧ o.save = savedItem mItem) ∨
      ¬ env.Loads mItem ∧ ∃ e, (CItemMgr.loadItem env mItem).exec g = (.error e, g) := by
  cases mItem with
  | tbl entries =>
    by_cases h : env.Loads (.tbl entries)
    · obtain ⟨-, iSid, belong, hsid, hb, hm⟩ := id h
      refine Or.inl ⟨h, ⟨.num iSid, g.iDispatchId + 1, (Val.tbl entries).entry (.str "amount"),
        (Val.tbl entries).entry (.str "data"), false⟩, ⟨g.iDispatchId + 1⟩, ?_, ?_⟩
      · show (CItemMgr.createItem env ((Val.tbl entries).entry (.str "sid")) >>= _ : LuaM CItemMgr CItem).exec g = _
        rw [LuaM.exec_bind, hsid, exec_createItem_of_moduleOf hb hm]
        rfl
      · simp [CItem.save, savedItem, Val.fields, hsid]
    · refine Or.inr ⟨h, ?_⟩
      have hno : ¬ ∃ i belong, (Val.tbl entries).entry (.str "sid") = .num i ∧ env.belong i = some belong ∧
          env.moduleOf i belong = .ok true := fun hc => h ⟨rfl, hc⟩
      obtain ⟨e, he⟩ := createItem_raises hno g
      refine ⟨e, ?_⟩
      show (CItemMgr.createItem env ((Val.tbl entries).entry (.str "sid")) >>= _ : LuaM CItemMgr CItem).exec g = _
      rw [LuaM.exec_bind, he]
  | nil => exact Or.inr ⟨fun h => (by cases h.1), _, rfl⟩
  | bool b => exact Or.inr ⟨fun h => (by cases h.1), _, rfl⟩
  | num i => exact Or.inr ⟨fun h => (by cases h.1), _, rfl⟩
  | str s => exact Or.inr ⟨fun h => (by cases h.1), _, rfl⟩

/-- One entry of a stored bag: it puts its item at its position, or raises and puts nothing. -/
theorem exec_loadEntry (env : ItemEnv) (e : Key × Val) (s : CItemCtrl × CItemMgr) :
    (∃ iPos o g, tonumber e.1 = some iPos ∧ env.Loads e.2 ∧ o.save = savedItem e.2 ∧
        (CItemCtrl.loadEntry env e).exec s =
          (.ok ⟨⟩, ({ s.1 with mItemList := update s.1.mItemList iPos (some o) }, g))) ∨
      ¬ ((tonumber e.1).isSome ∧ env.Loads e.2) ∧
        ∃ err g, (CItemCtrl.loadEntry env e).exec s = (.error err, (s.1, g)) := by
  unfold CItemCtrl.loadEntry
  rw [LuaM.exec_bind, LuaM.exec_within]
  rcases exec_loadItem env e.2 s.2 with ⟨hload, o, g, hitem, hsave⟩ | ⟨hload, err, hitem⟩
  · rw [hitem]
    cases hpos : tonumber e.1 with
    | none => exact Or.inr ⟨fun h => (by cases h.1), _, g, rfl⟩
    | some iPos => exact Or.inl ⟨iPos, o, g, rfl, hload, hsave, rfl⟩
  · rw [hitem]
    exact Or.inr ⟨fun h => hload h.2, err, s.2, rfl⟩

/-- An item in the bag was there before, or is that of an entry. -/
theorem mem_loadEntries (env : ItemEnv) : ∀ (entries : List (Key × Val)) (s : CItemCtrl × CItemMgr) {iPos : Int}
    {o : CItem}, (safeCall (entries.forM (CItemCtrl.loadEntry env)) s).1.mItemList iPos = some o →
      s.1.mItemList iPos = some o ∨
        ∃ e ∈ entries, tonumber e.1 = some iPos ∧ env.Loads e.2 ∧ o.save = savedItem e.2
  | [], _, _, _, h => Or.inl h
  | e :: entries, s, iPos, o, h => by
    have hcons : safeCall ((e :: entries).forM (CItemCtrl.loadEntry env)) s =
        ((CItemCtrl.loadEntry env e >>= fun _ => entries.forM (CItemCtrl.loadEntry env)).exec s).2 := rfl
    rw [hcons, LuaM.exec_bind] at h
    rcases exec_loadEntry env e s with ⟨i, o', g, hpos, hload, hsave, he⟩ | ⟨-, err, g, he⟩
    · rw [he] at h
      rcases mem_loadEntries env entries _ h with hbefore | ⟨e', hmem, he'⟩
      · replace hbefore : update s.1.mItemList i (some o') iPos = some o := hbefore
        by_cases hi : iPos = i
        · subst hi
          rw [update_self, Option.some.injEq] at hbefore
          exact Or.inr ⟨e, List.mem_cons_self, hpos, hload, hbefore ▸ hsave⟩
        · rw [update_of_ne hi] at hbefore
          exact Or.inl hbefore
      · exact Or.inr ⟨e', List.mem_cons_of_mem _ hmem, he'⟩
    · rw [he] at h
      exact Or.inl h

/-- When every entry can be loaded, each position of an entry has the item of one. -/
theorem loadEntries_mem (env : ItemEnv) : ∀ (entries : List (Key × Val)) (s : CItemCtrl × CItemMgr) (iPos : Int),
    (∀ e ∈ entries, (tonumber e.1).isSome ∧ env.Loads e.2) →
      (∃ e ∈ entries, tonumber e.1 = some iPos ∧
        ((safeCall (entries.forM (CItemCtrl.loadEntry env)) s).1.mItemList iPos).map CItem.save =
          some (savedItem e.2)) ∨
      (∀ e ∈ entries, tonumber e.1 ≠ some iPos) ∧
        (safeCall (entries.forM (CItemCtrl.loadEntry env)) s).1.mItemList iPos = s.1.mItemList iPos
  | [], _, _, _ => Or.inr ⟨fun _ h => (List.not_mem_nil h).elim, rfl⟩
  | e :: entries, s, iPos, h => by
    have hcons : safeCall ((e :: entries).forM (CItemCtrl.loadEntry env)) s =
        ((CItemCtrl.loadEntry env e >>= fun _ => entries.forM (CItemCtrl.loadEntry env)).exec s).2 := rfl
    rw [hcons, LuaM.exec_bind]
    rcases exec_loadEntry env e s with ⟨i, o, g, hpos, hload, hsave, he⟩ | ⟨hno, -⟩
    · rw [he]
      rcases loadEntries_mem env entries ({ s.1 with mItemList := update s.1.mItemList i (some o) }, g) iPos
          fun e he => h e (List.mem_cons_of_mem _ he) with ⟨e', hmem, he'⟩ | ⟨hnone, hkept⟩
      · exact Or.inl ⟨e', List.mem_cons_of_mem _ hmem, he'⟩
      · by_cases hi : iPos = i
        · subst hi
          refine Or.inl ⟨e, List.mem_cons_self, hpos, ?_⟩
          refine (congrArg (Option.map CItem.save) (hkept.trans (update_self iPos _ _))).trans ?_
          rw [Option.map_some, hsave]
        · refine Or.inr ⟨?_, ?_⟩
          · intro e' he'
            rcases List.mem_cons.1 he' with rfl | he'
            · rw [hpos, Ne, Option.some.injEq]
              exact Ne.symm hi
            · exact hnone e' he'
          · exact hkept.trans (update_of_ne hi _ _)
    · exact absurd (h e List.mem_cons_self) hno

/-- The keys of a saved bag are read as the positions they write. -/
theorem tonumber_eq_some {k : Key} {iPos iPos' : Int} (hk : k = .str (toString iPos))
    (h : tonumber k = some iPos') : iPos = iPos' ∧ IsInteger iPos := by
  subst hk
  rw [tonumber, numeral_toString, Option.filter_eq_some_iff] at h
  have heq := Option.some.inj h.1
  exact ⟨heq, heq ▸ of_decide_eq_true h.2⟩

/-- A bag saves what another table holds iff this is a table with the items at the same keys. -/
theorem content_items_eq_iff (f : Int → Option Val) (m : Val) : (BlockData.items f).content = m.content ↔
    m.OnlyFields ["itemdata"] ∧ ∃ entries, m.entry (.str "itemdata") = .tbl entries ∧
      ∀ k, (BlockData.itemAt f k).content = ((Val.tbl entries).entry k).content := by
  constructor
  · intro h
    have hdata : (m.entry (.str "itemdata")).leaf = .table := (congrFun h [.str "itemdata"]).symm
    obtain ⟨entries, hentries⟩ := Val.leaf_eq_table.1 hdata
    refine ⟨⟨(congrFun h []).symm, fun k hk => ?_⟩, entries, hentries, fun k => ?_⟩
    · by_contra hno
      have hkey : k ≠ .str "itemdata" := fun heq => hno ⟨"itemdata", List.mem_singleton_self _, heq⟩
      have hnil : Leaf.nil = (m.entry k).leaf := by simpa [BlockData.content, hkey] using congrFun h [k]
      exact hk (Val.leaf_eq_nil.1 hnil.symm)
    · funext ks
      have hk := congrFun h (.str "itemdata" :: k :: ks)
      simpa only [BlockData.content, if_pos, Val.content_cons, hentries] using hk
  · rintro ⟨⟨htable, honly⟩, entries, hentries, hitems⟩
    have hother : ∀ k, k ≠ .str "itemdata" → m.entry k = .nil := by
      intro k hk
      by_contra hne
      obtain ⟨s, hs, heq⟩ := honly k hne
      rw [List.mem_singleton.1 hs] at heq
      exact hk heq
    funext ks
    rcases ks with _ | ⟨k, _ | ⟨k', ks⟩⟩
    · exact htable.symm
    · by_cases hk : k = .str "itemdata"
      · subst hk
        simp [BlockData.content, hentries, Val.leaf]
      · simp [BlockData.content, hk, hother k hk, Val.leaf]
    · by_cases hk : k = .str "itemdata"
      · subst hk
        simp only [BlockData.content, if_pos, Val.content_cons, hentries, hitems]
      · simp only [BlockData.content, if_neg hk, Val.content_cons, hother k hk]
        exact (Val.nil_content ks).symm

section Entries

variable {entries : List (Key × Val)} (hkeys : (entries.map Prod.fst).Nodup) (hvalues : ∀ e ∈ entries, e.2 ≠ .nil)
  {c : CItemCtrl} {g : CItemMgr} (hempty : ∀ iPos, c.mItemList iPos = none)

include hkeys hvalues hempty in
/-- When the loaded bag saves what was stored, every entry was loaded, and has no other fields than an item. -/
theorem loads_of_itemAt
    (h : ∀ k, (BlockData.itemAt (safeCall (entries.forM (CItemCtrl.loadEntry env)) (c, g)).1.save k).content =
      ((Val.tbl entries).entry k).content) {e : Key × Val} (he : e ∈ entries) :
    (∃ iPos, IsInteger iPos ∧ e.1 = .str (toString iPos)) ∧ env.Loads e.2 ∧
      e.2.OnlyFields ["data", "sid", "amount"] := by
  -- every entry is under a position that the bag has
  have hpos : ∀ e ∈ entries, ∃ iPos v, e.1 = .str (toString iPos) ∧
      (safeCall (entries.forM (CItemCtrl.loadEntry env)) (c, g)).1.save iPos = some v ∧ v.content = e.2.content := by
    intro e he
    have hk := h e.1
    rw [Val.entry_of_mem hkeys he] at hk
    have hne : BlockData.itemAt (safeCall (entries.forM (CItemCtrl.loadEntry env)) (c, g)).1.save e.1 ≠ .nil := by
      intro hc
      rw [hc] at hk
      exact hvalues e he (Val.leaf_eq_nil.1 (congrFun hk []).symm)
    obtain ⟨iPos, v, hkey, hv⟩ := BlockData.exists_of_itemAt hne
    refine ⟨iPos, v, hkey, hv, ?_⟩
    rw [hkey, BlockData.itemAt_toString, hv] at hk
    exact hk
  obtain ⟨iPos, v, hkey, hv, hcontent⟩ := hpos e he
  obtain ⟨o, ho, rfl⟩ := Option.map_eq_some_iff.1 hv
  rcases mem_loadEntries env entries (c, g) ho with hbefore | ⟨e', he', hread, hload, hsave⟩
  · rw [hempty iPos] at hbefore
    cases hbefore
  · -- the item at the position is that of this entry
    obtain ⟨iPos', v', hkey', -, -⟩ := hpos e' he'
    obtain ⟨heq, hint⟩ := tonumber_eq_some hkey' hread
    have hval : e'.2 = e.2 := by
      rw [← Val.entry_of_mem hkeys he', ← Val.entry_of_mem hkeys he, hkey', heq, hkey]
    rw [hval] at hload hsave
    refine ⟨⟨iPos, heq ▸ hint, hkey⟩, hload, ?_⟩
    rw [← Val.content_fields_iff, ← hcontent, hsave]
    rfl

include hkeys hempty in
theorem itemAt_of_loads
    (h : ∀ e ∈ entries, (∃ iPos, IsInteger iPos ∧ e.1 = .str (toString iPos)) ∧ env.Loads e.2 ∧
      e.2.OnlyFields ["data", "sid", "amount"]) (k : Key) :
    (BlockData.itemAt (safeCall (entries.forM (CItemCtrl.loadEntry env)) (c, g)).1.save k).content =
      ((Val.tbl entries).entry k).content := by
  have hread : ∀ e ∈ entries, ∃ iPos, tonumber e.1 = some iPos ∧ e.1 = .str (toString iPos) := by
    intro e he
    obtain ⟨iPos, hint, hkey⟩ := (h e he).1
    exact ⟨iPos, by rw [hkey, tonumber_toString hint], hkey⟩
  have hloads : ∀ e ∈ entries, (tonumber e.1).isSome ∧ env.Loads e.2 := by
    intro e he
    obtain ⟨iPos, hi, -⟩ := hread e he
    exact ⟨by rw [hi]; rfl, (h e he).2.1⟩
  by_cases hk : ∃ e ∈ entries, e.1 = k
  · obtain ⟨e, he, rfl⟩ := hk
    obtain ⟨iPos, hi, hkey⟩ := hread e he
    rw [Val.entry_of_mem hkeys he, hkey, BlockData.itemAt_toString]
    rcases loadEntries_mem env entries (c, g) iPos hloads with ⟨e', he', hi', hitem⟩ | ⟨hnone, -⟩
    · obtain ⟨iPos', -, hkey'⟩ := hread e' he'
      have hval : e'.2 = e.2 := by
        rw [← Val.entry_of_mem hkeys he', ← Val.entry_of_mem hkeys he, hkey', (tonumber_eq_some hkey' hi').1, hkey]
      show (Option.getD (Option.map CItem.save _) _).content = _
      rw [hitem, hval, Option.getD_some]
      exact (Val.content_fields_iff _ _).2 (h e he).2.2
    · exact absurd hi (hnone e he)
  · -- nothing is stored under the key, and the bag has no item there
    have hstored : (Val.tbl entries).entry k = .nil := by
      by_contra hne
      rw [Val.entry_tbl] at hne
      cases hl : entries.lookup k with
      | none =>
        rw [hl] at hne
        exact hne rfl
      | some v => exact hk ⟨(k, v), Val.mem_of_lookup hl, rfl⟩
    have hbag : BlockData.itemAt (safeCall (entries.forM (CItemCtrl.loadEntry env)) (c, g)).1.save k = .nil := by
      by_contra hne
      obtain ⟨iPos, v, hkey, hv⟩ := BlockData.exists_of_itemAt hne
      obtain ⟨o, ho, -⟩ := Option.map_eq_some_iff.1 hv
      rcases mem_loadEntries env entries (c, g) ho with hbefore | ⟨e, he, hi, -, -⟩
      · rw [hempty iPos] at hbefore
        cases hbefore
      · obtain ⟨iPos', -, hkey'⟩ := hread e he
        exact hk ⟨e, he, by rw [hkey', (tonumber_eq_some hkey' hi).1, hkey]⟩
    rw [hstored, hbag]

end Entries

/-- A bag that is loaded saves what was stored iff each entry of the stored bag is loaded as it was saved. -/
theorem content_items_iff (env : ItemEnv) (iPid : Pid) (g : CItemMgr) {m : Val} (hm : m.Proper) :
    (BlockData.items (safeCall (CItemCtrl.load env m) (CItemCtrl.new iPid, g)).1.save).content = m.content ↔
      m.OnlyFields ["itemdata"] ∧ ∃ entries, m.entry (.str "itemdata") = .tbl entries ∧
        ∀ e ∈ entries, (∃ iPos, IsInteger iPos ∧ e.1 = .str (toString iPos)) ∧ env.Loads e.2 ∧
          e.2.OnlyFields ["data", "sid", "amount"] := by
  rw [content_items_eq_iff]
  refine and_congr_right fun honly => exists_congr fun entries => and_congr_right fun hentries => ?_
  have hproper := hm.entry (.str "itemdata")
  rw [hentries] at hproper
  obtain ⟨hkeys, hvalues⟩ : (entries.map Prod.fst).Nodup ∧ ∀ e ∈ entries, e.2 ≠ .nil := by
    cases hproper with
    | tbl keys values => exact ⟨keys, values⟩
  have hload : safeCall (CItemCtrl.load env m) (CItemCtrl.new iPid, g) =
      safeCall (entries.forM (CItemCtrl.loadEntry env)) (CItemCtrl.new iPid, g) := by
    obtain ⟨l, rfl⟩ := Val.leaf_eq_table.1 honly.1
    unfold CItemCtrl.load safeCall
    rw [Val.entry_tbl] at hentries
    simp only [Val.truthy, Val.index, hentries]
    rfl
  rw [hload]
  exact ⟨fun h e he => loads_of_itemAt hkeys hvalues (fun _ => rfl) h he,
    fun h => itemAt_of_loads hkeys (fun _ => rfl) h⟩

end Items

/-! ## The record of a player -/

/-- What gamedb sends of a player. -/
structure Record where
  val : Val
  proper : val.Proper

/-- The blocks that loading and saving restores: tables that have the fields of the block only, with a bag whose every
entry is one that a save has written, of an item that can be loaded. -/
def Restorable (env : ItemEnv) (record : Val) : Prop :=
  (record.entry (.str "basectrl")).OnlyFields ["school", "sex", "icon", "model"] ∧
    (record.entry (.str "activectrl")).OnlyFields ["exp", "grade"] ∧
    (record.entry (.str "itemctrl")).OnlyFields ["itemdata"] ∧
    ∃ entries, (record.entry (.str "itemctrl")).entry (.str "itemdata") = .tbl entries ∧
      ∀ e ∈ entries, (∃ iPos, IsInteger iPos ∧ e.1 = .str (toString iPos)) ∧ env.Loads e.2 ∧
        e.2.OnlyFields ["data", "sid", "amount"]

/-- The base, the active and the item block of a player that was loaded save what was stored iff the record is one that
is restored. -/
theorem content_loaded_iff (env : LoadEnv) (iPid : Pid) (mRole : MRole) (g : CItemMgr) (record : Record) :
    (∀ b ≠ .time, ((loaded env record.val (CPlayer.new iPid mRole) g).1.save b).content =
      (record.val.entry (.str b.name)).content) ↔ Restorable env.items record.val := by
  have hbase := content_base_iff iPid mRole (record.val.entry (.str "basectrl"))
  have hactive := content_active_iff iPid (record.val.entry (.str "activectrl"))
  have hitem := content_items_iff env.items iPid g (record.proper.entry (.str "itemctrl"))
  simp only [← Val.field_eq_entry] at hbase hactive hitem
  unfold Restorable
  simp only [← Val.field_eq_entry] at *
  rw [← hbase, ← hactive, ← hitem]
  constructor
  · exact fun h => ⟨h .base (by decide), h .active (by decide), h .item (by decide)⟩
  · rintro ⟨h₁, h₂, h₃⟩ b hb
    cases b with
    | base => exact h₁
    | active => exact h₂
    | item => exact h₃
    | time => exact absurd rfl hb

end RoundGame.World
