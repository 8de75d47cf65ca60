import CrossTransfer.Library.Trimming
import CrossTransfer.Notification.SavedStore

/-! # The notification store is durable

In a run whose clock is past the epoch and whose ids are new, the file of the store always decodes to its
items, `Open` accepts it, and the snapshot lists the active items; a call that fails changes nothing
(`store_durable`). `Create` and `Revoke` do not look at the clock, though: what they save at the epoch or
before it is not what `Open` expects (`not_store_durable`).
-/

namespace CrossTransfer.Notification

open CrossTransfer.Library
open CrossTransfer.Transfer

/-! ## Valid records -/

theorem validRecord_eq (seen : List Text) (item : Item) :
    validRecord seen item = (!seen.contains item.id && validRecord [] item) := by
  simp only [validRecord, List.contains_nil, Bool.not_false, Bool.and_true]
  ac_rfl

theorem validRecords_iff {seen : List Text} {items : List Item} :
    validRecords seen items = true ↔ (∀ item ∈ items, validRecord [] item = true) ∧
      (items.map Item.id).Nodup ∧ ∀ item ∈ items, item.id ∉ seen := by
  induction items generalizing seen with
  | nil => simp [validRecords]
  | cons item rest ih =>
    rw [validRecords, validRecord_eq, Bool.and_eq_true, ih]
    simp only [Bool.and_eq_true, Bool.not_eq_true', List.contains_eq_mem, decide_eq_false_iff_not,
      List.forall_mem_cons, List.map_cons, List.nodup_cons, List.mem_map, List.mem_append,
      List.mem_singleton, not_or, not_exists, not_and]
    constructor
    · rintro ⟨⟨hnew, hitem⟩, hrest, hnodup, hothers⟩
      exact ⟨⟨hitem, hrest⟩, ⟨fun other hmem => (hothers other hmem).2, hnodup⟩, hnew,
        fun other hmem => (hothers other hmem).1⟩
    · rintro ⟨⟨hitem, hrest⟩, ⟨hdistinct, hnodup⟩, hnew, hothers⟩
      exact ⟨⟨hnew, hitem⟩, hrest, hnodup, fun other hmem => ⟨hothers other hmem, hdistinct other hmem⟩⟩

theorem validRecords_take {items : List Item} (n : Nat) (h : validRecords [] items = true) :
    validRecords [] (items.take n) = true := by
  obtain ⟨hvalid, hnodup, -⟩ := validRecords_iff.mp h
  refine validRecords_iff.mpr ⟨fun item hitem => hvalid item (List.mem_of_mem_take hitem), ?_, by simp⟩
  rw [List.map_take]
  exact hnodup.sublist (List.take_sublist ..)

theorem trimSpace_trimSpace (s : Text) : trimSpace (trimSpace s) = trimSpace s :=
  strip_strip (p := isSpace) s

/-- What `Validate` lets pass passes again. -/
theorem validate_validate {d d' : Draft} (h : d.validate = .ok d') : d'.validate = .ok d' := by
  unfold Draft.validate at h
  dsimp only at h
  split at h
  · cases h
  · rename_i hlength
    split at h
    · cases h
    · rename_i hlevel
      cases h
      simp only [Draft.validate, trimSpace_trimSpace]
      rw [if_neg hlength, if_neg hlevel]

theorem validate_raw {d : RawDraft} {d' : Draft} (h : d.validate = .ok d') : d'.validate = .ok d' := by
  unfold RawDraft.validate at h
  split at h
  · exact validate_validate h
  · cases h

theorem isHexDigit_digitChar : ∀ n < 16, isHexDigit (Nat.digitChar n) = true := by decide

theorem length_hexEncode (bytes : Bytes) : (hexEncode bytes).length = 2 * bytes.length := by
  induction bytes with
  | nil => rfl
  | cons b bytes ih =>
    have hcons : hexEncode (b :: bytes) =
        Nat.digitChar (b.toNat / 16) :: Nat.digitChar (b.toNat % 16) :: hexEncode bytes := rfl
    rw [hcons, List.length_cons, List.length_cons, List.length_cons, ih]
    omega

theorem all_hexEncode (bytes : Bytes) : (hexEncode bytes).all isHexDigit = true := by
  rw [List.all_eq_true]
  intro c hc
  obtain ⟨b, -, hb⟩ := List.mem_flatMap.mp hc
  have hlt := b.toNat_lt
  obtain rfl | hb := List.mem_cons.mp hb
  · exact isHexDigit_digitChar _ (by omega)
  · rw [List.mem_singleton.mp hb]
    exact isHexDigit_digitChar _ (by omega)

/-! ## Consistency -/

/-- The file decodes to the items; before anything has been saved there may be no file. -/
def Stored (fs : Files) (path : Path) (items : List Item) : Prop :=
  (fs.read path = none ∧ items = []) ∨ ∃ data, fs.read path = some data ∧ unmarshal data = some items

/-- What `Open` gives and every call keeps. -/
structure SavedStore.Consistent (s : SavedStore) : Prop where
  few : s.store.items.length ≤ limit
  valid : validRecords [] s.store.items = true
  inRange : ∀ item ∈ s.store.items, item.InRange
  stored : Stored s.fs s.path s.store.items
  published : ∀ snapshot, s.snapshot = some snapshot → snapshot = marshalSnapshot s.store.active

/-- A call has changed neither the items nor the file nor the snapshot. -/
structure SavedStore.Unchanged (s s' : SavedStore) : Prop where
  store : s'.store = s.store
  file : s'.fs.read s'.path = s.fs.read s.path
  snapshot : s'.snapshot = s.snapshot

/-- The file and the snapshot are those of the items. -/
structure SavedStore.Saved (s : SavedStore) : Prop where
  decodes : ∃ data, s.fs.read s.path = some data ∧ unmarshal data = some s.store.items
  reopens : ∀ onChange, ∃ t, SavedStore.openFile s.fs s.path true onChange = .ok t ∧ t.store = s.store
  lists : ∀ snapshot, s.snapshot = some snapshot → Lists snapshot s.store.active

namespace SavedStore

variable {s s' : SavedStore} {io io' : CallIo} {fs : Files} {path : Path} {items : List Item}
  {readable onChange : Bool} {d : RawDraft} {id : Text} {item : Item} {e : Failure}

theorem openStore_some (hfew : items.length ≤ limit) (hvalid : validRecords [] items = true) :
    openStore (.ok (some items)) = .ok ⟨items⟩ := by
  simp [openStore, Nat.not_lt.mpr hfew, hvalid]

theorem readItems_some {data : Bytes} (hread : fs.read path = some data)
    (hdata : unmarshal data = some items) : readItems fs path true = .ok (some items) := by
  simp [readItems, hread, hdata]

theorem Consistent.inRange_active (h : s.Consistent) : ∀ item ∈ s.store.active, item.InRange :=
  fun item hitem => h.inRange item (List.mem_of_mem_filter hitem)

theorem Consistent.distinct (h : s.Consistent) : (s.store.items.map Item.id).Nodup :=
  (validRecords_iff.mp h.valid).2.1

/-- With a file there is all that a successful call promises. -/
theorem Consistent.saved (h : s.Consistent)
    (hfile : ∃ data, s.fs.read s.path = some data ∧ unmarshal data = some s.store.items) : s.Saved where
  decodes := hfile
  reopens := by
    intro onChange
    obtain ⟨data, hread, hdata⟩ := hfile
    refine ⟨publishSnapshot ⟨s.fs, s.path, s.store, if onChange then some [] else none⟩, ?_, rfl⟩
    rw [openFile, readItems_some hread hdata, openStore_some h.few h.valid]
    rfl
  lists := by
    intro snapshot hsnapshot
    rw [h.published snapshot hsnapshot]
    exact lists_marshalSnapshot h.inRange_active

theorem Consistent.unchanged (h : s.Consistent) (hs : s.Unchanged s') : s'.Consistent where
  few := by rw [hs.store]; exact h.few
  valid := by rw [hs.store]; exact h.valid
  inRange := by rw [hs.store]; exact h.inRange
  stored := by
    have hstored := h.stored
    rw [Stored, ← hs.file, ← hs.store] at hstored
    exact hstored
  published := by rw [hs.store, hs.snapshot]; exact h.published

theorem Unchanged.refl (s : SavedStore) : s.Unchanged s := ⟨rfl, rfl, rfl⟩

/-! ## Opening -/

theorem readItems_cases {file : Option (List Item)} (h : readItems fs path readable = .ok file) :
    (file = none ∧ fs.read path = none) ∨
      ∃ items data, file = some items ∧ fs.read path = some data ∧ unmarshal data = some items := by
  unfold readItems at h
  split at h
  · rename_i data hread
    split at h
    · split at h
      · rename_i items hitems
        cases h
        exact .inr ⟨items, data, rfl, hread, hitems⟩
      · cases h
    · cases h
  · rename_i hread
    split at h
    · cases h
      exact .inl ⟨rfl, hread⟩
    · cases h

theorem openStore_cases {file : Except String (Option (List Item))} {store : Store}
    (h : openStore file = .ok store) :
    (file = .ok none ∧ store.items = []) ∨
      file = .ok (some store.items) ∧ store.items.length ≤ limit ∧
        validRecords [] store.items = true := by
  unfold openStore at h
  split at h
  · cases h
  · cases h
    exact .inl ⟨rfl, rfl⟩
  · split at h
    · cases h
    · rename_i hfew
      split at h
      · cases h
      · rename_i hvalid
        cases h
        exact .inr ⟨rfl, Nat.not_lt.mp hfew, by simpa using hvalid⟩

/-- Whatever `Open` accepts is consistent. -/
theorem consistent_open (h : openFile fs path readable onChange = .ok s) : s.Consistent := by
  cases hstore : openStore (readItems fs path readable) with
  | error message => simp [openFile, hstore, Except.map] at h
  | ok store =>
    rw [openFile, hstore] at h
    cases h
    have published : ∀ snapshot, ((if onChange then some ([] : Bytes) else none).map
        fun _ => marshalSnapshot store.active) = some snapshot →
          snapshot = marshalSnapshot store.active := by
      intro snapshot hsnapshot
      obtain ⟨-, -, rfl⟩ := Option.map_eq_some_iff.mp hsnapshot
      rfl
    obtain ⟨hfile, hempty⟩ | ⟨hfile, hfew, hvalid⟩ := openStore_cases hstore
    · obtain ⟨-, hread⟩ | ⟨items, data, hsome, -⟩ := readItems_cases hfile
      · exact ⟨by simp [publishSnapshot, hempty], by simp [publishSnapshot, hempty, validRecords],
          by simp [publishSnapshot, hempty], .inl ⟨hread, hempty⟩, published⟩
      · cases hsome
    · obtain ⟨hnone, -⟩ | ⟨items, data, hsome, hread, hdata⟩ := readItems_cases hfile
      · cases hnone
      · cases hsome
        exact ⟨hfew, hvalid, inRange_unmarshal hdata, .inr ⟨data, hread, hdata⟩, published⟩

/-! ## Committing -/

/-- A commit either fails and changes nothing, or all of the new items are in their places. -/
theorem commit_cases (htemp : io.tempPath s.path ≠ s.path) {result : Except Failure Unit}
    (h : s.commit io items = (s', result)) :
    (∃ e, result = .error e ∧ s.Unchanged s') ∨
      result = .ok () ∧ io.Works ∧ s'.store.items = items ∧
        s'.fs.read s'.path = some (marshalIndent items) ∧
        ∀ snapshot, s'.snapshot = some snapshot → snapshot = marshalSnapshot s'.store.active := by
  unfold commit at h
  split at h
  · rename_i fs e hsave
    cases h
    obtain ⟨e', -, hread⟩ | ⟨herror, -⟩ := saveFile_cases htemp hsave
    · exact .inl ⟨e, rfl, rfl, hread, rfl⟩
    · cases herror
  · rename_i fs hsave
    cases h
    obtain ⟨e', herror, -⟩ | ⟨-, hworks, hread⟩ := saveFile_cases htemp hsave
    · cases herror
    · refine .inr ⟨rfl, hworks, rfl, hread, fun snapshot hsnapshot => ?_⟩
      obtain ⟨-, -, rfl⟩ := Option.map_eq_some_iff.mp hsnapshot
      rfl

/-- Items that `Open` accepts are committed consistently. -/
theorem consistent_commit (hfew : items.length ≤ limit) (hvalid : validRecords [] items = true)
    (hrange : ∀ item ∈ items, item.InRange) (hitems : s'.store.items = items)
    (hread : s'.fs.read s'.path = some (marshalIndent items))
    (hpublished : ∀ snapshot, s'.snapshot = some snapshot →
      snapshot = marshalSnapshot s'.store.active) : s'.Consistent := by
  subst hitems
  exact ⟨hfew, hvalid, hrange, .inr ⟨_, hread, unmarshal_marshalIndent hrange⟩, hpublished⟩

/-! ## Creating -/

/-- The items after an announcement. -/
def announced (s : SavedStore) (item : Item) : List Item := (item :: s.store.items).take limit

theorem create_cases (htemp : io.tempPath s.path ≠ s.path) {result : Except Failure Item}
    (h : s.create io d = (s', result)) :
    (∃ e, result = .error e ∧ s.Unchanged s') ∨
      ∃ draft bytes item, d.validate = .ok draft ∧ io.random = some bytes ∧
        item = newItem draft bytes io.now ∧ result = .ok item ∧
        s.commit io (s.announced item) = (s', .ok ()) := by
  unfold create at h
  split at h
  · cases h
    exact .inl ⟨_, rfl, .refl s⟩
  · cases h
    exact .inl ⟨_, rfl, .refl s⟩
  · rename_i draft bytes hdraft hbytes
    dsimp only at h
    cases hcommit : s.commit io (s.announced (newItem draft bytes io.now)) with
    | mk t outcome =>
      rw [announced] at hcommit
      rw [hcommit] at h
      cases h
      obtain ⟨e, rfl, hsame⟩ | ⟨rfl, -⟩ := commit_cases htemp hcommit
      · exact .inl ⟨e, rfl, hsame⟩
      · exact .inr ⟨draft, bytes, _, hdraft, hbytes, rfl, rfl, hcommit⟩

/-- A new item is a valid record, if the clock is past the epoch. -/
theorem validRecord_new {draft : Draft} {bytes : { bytes : Bytes // bytes.length = 16 }} {now : Int64}
    (hdraft : d.validate = .ok draft) (hnow : 0 < now.toInt) :
    validRecord [] (newItem draft bytes now) = true := by
  have hvalid : draft.validate.isOk = true := by
    rw [validate_raw hdraft]
    rfl
  simp [validRecord, newItem, length_hexEncode, bytes.property, all_hexEncode, hnow, hvalid]

theorem inRange_new (draft : Draft) (bytes : Bytes) (now : Int64) :
    (newItem draft bytes now).InRange :=
  ⟨⟨now.le_toInt, now.toInt_lt⟩, by simp [newItem, IsInt64]⟩

theorem validRecords_announced (h : s.Consistent) (hitem : validRecord [] item = true)
    (hfresh : item.id ∉ (s.store.items.take (limit - 1)).map Item.id) :
    validRecords [] (s.announced item) = true := by
  have hrest := validRecords_take (limit - 1) h.valid
  obtain ⟨hvalid, hnodup, -⟩ := validRecords_iff.mp hrest
  have htake : s.announced item = item :: s.store.items.take (limit - 1) := rfl
  rw [htake]
  refine validRecords_iff.mpr ⟨?_, ?_, by simp⟩
  · rw [List.forall_mem_cons]
    exact ⟨hitem, hvalid⟩
  · rw [List.map_cons, List.nodup_cons]
    exact ⟨hfresh, hnodup⟩

/-! ## Revoking -/

theorem map_id_revokeFirst (id : Text) (now : Int) (items : List Item) :
    (Store.revokeFirst id now items).map Item.id = items.map Item.id := by
  have hid : Item.id ∘ Item.announced = Item.id := rfl
  have hsame := congrArg (List.map Item.id) (Store.announced_revokeFirst id now items)
  rwa [List.map_map, List.map_map, hid] at hsame

/-- The items after a revocation are those before, or one of them with the time of it. -/
theorem mem_revokeFirst {now : Int} (h : item ∈ Store.revokeFirst id now items) :
    item ∈ items ∨ ∃ old ∈ items, item = { old with revokedAt := now } := by
  induction items with
  | nil => cases h
  | cons first rest ih =>
    rw [Store.revokeFirst] at h
    split at h
    · obtain rfl | h := List.mem_cons.mp h
      · exact .inr ⟨first, List.mem_cons_self, rfl⟩
      · exact .inl (List.mem_cons_of_mem _ h)
    · obtain rfl | h := List.mem_cons.mp h
      · exact .inl List.mem_cons_self
      · obtain h | ⟨old, hold, heq⟩ := ih h
        · exact .inl (List.mem_cons_of_mem _ h)
        · exact .inr ⟨old, List.mem_cons_of_mem _ hold, heq⟩

theorem validRecord_revoked {now : Int} (hitem : validRecord [] item = true) (hnow : 0 ≤ now) :
    validRecord [] { item with revokedAt := now } = true := by
  simp only [validRecord, Bool.and_eq_true, decide_eq_true_eq] at hitem ⊢
  obtain ⟨⟨hhead, -⟩, hdraft⟩ := hitem
  exact ⟨⟨hhead, hnow⟩, hdraft⟩

theorem validRecords_revokeFirst {now : Int} (h : validRecords [] items = true) (hnow : 0 ≤ now) :
    validRecords [] (Store.revokeFirst id now items) = true := by
  obtain ⟨hvalid, hnodup, -⟩ := validRecords_iff.mp h
  refine validRecords_iff.mpr ⟨fun item hitem => ?_, ?_, by simp⟩
  · obtain hold | ⟨old, hold, rfl⟩ := mem_revokeFirst hitem
    · exact hvalid item hold
    · exact validRecord_revoked (hvalid old hold) hnow
  · rw [map_id_revokeFirst]
    exact hnodup

theorem revoke_cases (htemp : io.tempPath s.path ≠ s.path) {result : Except Failure Unit}
    (h : s.revoke io id = (s', result)) :
    (∃ e, result = .error e ∧ s.Unchanged s') ∨
      (∃ item, s.store.items.find? (fun item => item.id == id) = some item ∧
        ((item.revokedAt ≠ 0 ∧ s' = s ∧ result = .ok ()) ∨
          (item.revokedAt = 0 ∧ result = .ok () ∧
            s.commit io (Store.revokeFirst id io.now.toInt s.store.items) = (s', .ok ())))) := by
  unfold revoke at h
  split at h
  · cases h
    exact .inl ⟨_, rfl, .refl s⟩
  · rename_i item hfind
    split at h
    · rename_i hrevoked
      cases h
      exact .inr ⟨item, hfind, .inl ⟨hrevoked, rfl, rfl⟩⟩
    · rename_i hactive
      obtain ⟨e, rfl, hsame⟩ | ⟨rfl, -⟩ := commit_cases htemp h
      · exact .inl ⟨e, rfl, hsame⟩
      · exact .inr ⟨item, hfind, .inr ⟨not_not.mp hactive, rfl, h⟩⟩

/-- The first item with the id has been revoked. -/
theorem find?_revokeFirst (now : Int) (hfind : items.find? (fun item => item.id == id) = some item) :
    (Store.revokeFirst id now items).find? (fun item => item.id == id) =
      some { item with revokedAt := now } := by
  induction items with
  | nil => cases hfind
  | cons first rest ih =>
    rw [Store.revokeFirst]
    by_cases hid : first.id = id
    · rw [List.find?_cons_of_pos (by simpa using hid)] at hfind
      cases hfind
      rw [if_pos hid, List.find?_cons_of_pos (by simpa using hid)]
    · rw [List.find?_cons_of_neg (by simpa using hid)] at hfind
      rw [if_neg hid, List.find?_cons_of_neg (by simpa using hid)]
      exact ih hfind

/-- A revoked item is not revoked again. -/
theorem revoke_revoked (hfind : s.store.items.find? (fun item => item.id == id) = some item)
    (hrevoked : item.revokedAt ≠ 0) : s.revoke io id = (s, .ok ()) := by
  simp [revoke, hfind, hrevoked]

/-! ## Calls -/

/-- What a call must find so that what it saves can be read again: the clock is past the epoch, a new id
    is the id of no item that is kept, and the temporary file is not the file of the store. -/
def Sound (s : SavedStore) : StoreAct → Prop
  | .call (.create io d) => io.tempPath s.path ≠ s.path ∧
      (d.validate.isOk = true → io.Works → 0 < io.now.toInt ∧ ∀ bytes, io.random = some bytes →
        hexEncode bytes ∉ (s.store.items.take (limit - 1)).map Item.id)
  | .call (.revoke io id) => io.tempPath s.path ≠ s.path ∧
      ∀ item, s.store.items.find? (fun item => item.id == id) = some item → item.revokedAt = 0 →
        io.Works → 0 < io.now.toInt
  | .other _ => True

/-- A call, from `s`. -/
structure Durable (s : SavedStore) (c : Call) : Prop where
  failed : ∀ e, (s.call c).2 = .error e → s.Unchanged (s.call c).1
  saved : (s.call c).2 = .ok () → (s.call c).1.Saved
  revokedOnce : ∀ io id, c = .revoke io id → (s.call c).2 = .ok () →
    ∀ io', (s.call c).1.revoke io' id = ((s.call c).1, .ok ())

/-- What a step does to the items: something new in front, and at most 50 are kept. -/
def Grows (s : SavedStore) (new : List Item) (s' : SavedStore) : Prop :=
  s'.store.items.map Item.announced = (new ++ s.store.items.map Item.announced).take limit

theorem Consistent.take_announced (h : s.Consistent) :
    (s.store.items.map Item.announced).take limit = s.store.items.map Item.announced :=
  List.take_of_length_le (by simpa using h.few)

theorem Consistent.grows_unchanged (h : s.Consistent) (hs : s.Unchanged s') : s.Grows [] s' := by
  rw [Grows, hs.store, List.nil_append, h.take_announced]

/-- What a call leaves behind that has been successful. -/
structure Succeeds (s : SavedStore) (a : StoreAct) (s' : SavedStore) : Prop where
  consistent : s'.Consistent
  saved : s'.Saved
  grows : s.Grows (s.announces a) s'

theorem create_succeeds (h : s.Consistent) (hsound : s.Sound (.call (.create io d)))
    (hcreate : s.create io d = (s', .ok item)) : s.Succeeds (.call (.create io d)) s' := by
  obtain ⟨htemp, hclock⟩ := hsound
  obtain ⟨e, herror, -⟩ | ⟨draft, bytes, new, hdraft, hbytes, rfl, hresult, hcommit⟩ :=
    create_cases htemp hcreate
  · cases herror
  cases hresult
  obtain ⟨e, herror, -⟩ | ⟨-, hworks, hitems, hread, hpublished⟩ := commit_cases htemp hcommit
  · cases herror
  have hvalidated : d.validate.isOk = true := by
    rw [hdraft]
    rfl
  obtain ⟨hnow, hfresh⟩ := hclock hvalidated hworks
  have hrange : ∀ item ∈ s.announced (newItem draft bytes io.now), item.InRange := by
    intro item hitem
    obtain rfl | hold := List.mem_cons.mp (List.mem_of_mem_take hitem)
    · exact inRange_new ..
    · exact h.inRange item hold
  have hconsistent : s'.Consistent := consistent_commit (List.length_take_le ..)
    (validRecords_announced h (validRecord_new hdraft hnow) (hfresh bytes hbytes)) hrange hitems hread
    hpublished
  refine ⟨hconsistent, hconsistent.saved ⟨_, hread, ?_⟩, ?_⟩
  · rw [hitems, unmarshal_marshalIndent hrange]
  · have hnew : s.announces (.call (.create io d)) = [newItem draft bytes io.now] := by
      simp only [announces, hcreate]
    rw [Grows, hnew, hitems, announced, List.map_take, List.map_cons]
    rfl

theorem revoke_succeeds (h : s.Consistent) (hsound : s.Sound (.call (.revoke io id)))
    (hrevoke : s.revoke io id = (s', .ok ())) : s.Succeeds (.call (.revoke io id)) s' := by
  obtain ⟨htemp, hclock⟩ := hsound
  obtain ⟨e, herror, -⟩ | ⟨item, hfind, ⟨-, rfl, -⟩ | ⟨hactive, -, hcommit⟩⟩ :=
    revoke_cases htemp hrevoke
  · cases herror
  · -- It has been revoked before, and there is a file because there is an item.
    have hfile : ∃ data, s'.fs.read s'.path = some data ∧ unmarshal data = some s'.store.items := by
      refine h.stored.resolve_left fun hnone => ?_
      rw [hnone.2] at hfind
      cases hfind
    exact ⟨h, h.saved hfile, h.grows_unchanged (.refl s')⟩
  · obtain ⟨e, herror, -⟩ | ⟨-, hworks, hitems, hread, hpublished⟩ := commit_cases htemp hcommit
    · cases herror
    have hnow := hclock item hfind hactive hworks
    have hrange : ∀ item ∈ Store.revokeFirst id io.now.toInt s.store.items, item.InRange := by
      intro item hitem
      obtain hold | ⟨old, hold, rfl⟩ := mem_revokeFirst hitem
      · exact h.inRange item hold
      · exact ⟨(h.inRange old hold).1, io.now.le_toInt, io.now.toInt_lt⟩
    have hsame := Store.announced_revokeFirst id io.now.toInt s.store.items
    have hfew : (Store.revokeFirst id io.now.toInt s.store.items).length ≤ limit := by
      have hlength := congrArg List.length hsame
      rw [List.length_map, List.length_map] at hlength
      rw [hlength]
      exact h.few
    have hconsistent : s'.Consistent := consistent_commit hfew
      (validRecords_revokeFirst h.valid hnow.le) hrange hitems hread hpublished
    refine ⟨hconsistent, hconsistent.saved ⟨_, hread, ?_⟩, ?_⟩
    · rw [hitems, unmarshal_marshalIndent hrange]
    · rw [Grows, hitems, hsame]
      exact h.take_announced.symm

theorem call_cases {c : Call} (h : s.Consistent) (hsound : s.Sound (.call c)) :
    (∃ e, (s.call c).2 = .error e ∧ s.Unchanged (s.call c).1 ∧ s.announces (.call c) = []) ∨
      (s.call c).2 = .ok () ∧ s.Succeeds (.call c) (s.call c).1 := by
  cases c with
  | create io d =>
    cases hcreate : s.create io d with
    | mk s' result =>
      cases result with
      | ok item =>
        refine .inr ⟨by simp [call, hcreate, Except.map], ?_⟩
        simpa [call, hcreate] using create_succeeds h hsound hcreate
      | error e =>
        obtain ⟨e', -, hsame⟩ | ⟨-, -, item, -, -, -, hresult, -⟩ := create_cases hsound.1 hcreate
        · exact .inl ⟨e, by simp [call, hcreate, Except.map], by simpa [call, hcreate] using hsame,
            by simp [announces, hcreate]⟩
        · cases hresult
  | revoke io id =>
    cases hrevoke : s.revoke io id with
    | mk s' result =>
      cases result with
      | ok u =>
        refine .inr ⟨by simp [call, hrevoke], ?_⟩
        simpa [call, hrevoke] using revoke_succeeds h hsound hrevoke
      | error e =>
        obtain ⟨e', -, hsame⟩ | ⟨item, -, ⟨-, -, hresult⟩ | ⟨-, hresult, -⟩⟩ :=
          revoke_cases hsound.1 hrevoke
        · exact .inl ⟨e, by simp [call, hrevoke], by simpa [call, hrevoke] using hsame, rfl⟩
        · cases hresult
        · cases hresult

/-- Revoking what has just been revoked does nothing. -/
theorem revoke_revoke (hsound : s.Sound (.call (.revoke io id)))
    (hrevoke : s.revoke io id = (s', .ok ())) : s'.revoke io' id = (s', .ok ()) := by
  obtain ⟨htemp, hclock⟩ := hsound
  obtain ⟨e, herror, -⟩ | ⟨item, hfind, ⟨hrevoked, rfl, -⟩ | ⟨hactive, -, hcommit⟩⟩ :=
    revoke_cases htemp hrevoke
  · cases herror
  · exact revoke_revoked hfind hrevoked
  · obtain ⟨e, herror, -⟩ | ⟨-, hworks, hitems, -⟩ := commit_cases htemp hcommit
    · cases herror
    have hnow := hclock item hfind hactive hworks
    have hfound := find?_revokeFirst io.now.toInt hfind
    rw [← hitems] at hfound
    exact revoke_revoked hfound hnow.ne'

theorem durable_call {c : Call} (h : s.Consistent) (hsound : s.Sound (.call c)) : s.Durable c := by
  obtain ⟨e, herror, hsame, -⟩ | ⟨hok, hsucceeds⟩ := call_cases h hsound
  · refine ⟨fun _ _ => hsame, fun hok => ?_, fun _ _ _ hok => ?_⟩
    · rw [herror] at hok
      cases hok
    · rw [herror] at hok
      cases hok
  · refine ⟨fun e herror => ?_, fun _ => hsucceeds.saved, ?_⟩
    · rw [hok] at herror
      cases herror
    · rintro io id rfl - io'
      exact revoke_revoke hsound (Prod.ext rfl hok)

/-! ## The store without its file -/

/-- A successful `create` is one of the store, with a file that could be saved. -/
theorem create_refines (htemp : io.tempPath s.path ≠ s.path) (h : s.create io d = (s', .ok item)) :
    ∃ io draft, s.store.create io draft = .ok (item, s'.store) := by
  obtain ⟨e, herror, -⟩ | ⟨draft, bytes, new, hdraft, -, rfl, hresult, hcommit⟩ := create_cases htemp h
  · cases herror
  cases hresult
  obtain ⟨e, herror, -⟩ | ⟨-, -, hitems, -⟩ := commit_cases htemp hcommit
  · cases herror
  have hstore : s'.store = ⟨s.announced (newItem draft bytes io.now)⟩ := by rw [← hitems]
  refine ⟨⟨.ok (hexEncode bytes), io.now.toInt, .ok ()⟩, draft, ?_⟩
  simp only [Store.create, validate_raw hdraft, hstore]
  rfl

theorem revoke_refines (htemp : io.tempPath s.path ≠ s.path) (h : s.revoke io id = (s', .ok ())) :
    ∃ io result, s.store.revoke io id = .ok result ∧ s'.store = result.getD s.store := by
  obtain ⟨e, herror, -⟩ | ⟨item, hfind, ⟨hrevoked, rfl, -⟩ | ⟨hactive, -, hcommit⟩⟩ := revoke_cases htemp h
  · cases herror
  · exact ⟨⟨.ok [], 0, .ok ()⟩, none, by simp [Store.revoke, hfind, hrevoked], rfl⟩
  · obtain ⟨e, herror, -⟩ | ⟨-, -, hitems, -⟩ := commit_cases htemp hcommit
    · cases herror
    have hstore : s'.store = ⟨Store.revokeFirst id io.now.toInt s.store.items⟩ := by rw [← hitems]
    refine ⟨⟨.ok [], io.now.toInt, .ok ()⟩, some s'.store, ?_, rfl⟩
    rw [hstore]
    simp [Store.revoke, hfind, hactive, Store.commit, Except.map]

/-! ## Runs -/

theorem step_keeps {a : StoreAct} (h : s.Consistent) (hsound : s.Sound a)
    (hstep : s.step a = some s') : s'.Consistent ∧ s.Grows (s.announces a) s' := by
  cases a with
  | call c =>
    cases hstep
    obtain ⟨e, -, hsame, hnone⟩ | ⟨-, hsucceeds⟩ := call_cases h hsound
    · rw [hnone]
      exact ⟨h.unchanged hsame, h.grows_unchanged hsame⟩
    · exact ⟨hsucceeds.consistent, hsucceeds.grows⟩
  | other fs =>
    rw [step] at hstep
    split at hstep
    · rename_i hread
      cases hstep
      have hsame : s.Unchanged { s with fs := fs } := ⟨rfl, hread, rfl⟩
      exact ⟨h.unchanged hsame, h.grows_unchanged hsame⟩
    · cases hstep

/-- The items, when `born` have been announced in this order. -/
structure Keeps (s : SavedStore) (born : List Item) : Prop where
  few : s.store.items.length ≤ limit
  distinct : (s.store.items.map Item.id).Nodup
  newest : s.store.items.map Item.announced = born.reverse.take limit

/-- What has been announced before the store was opened and in the run `as`. -/
def born (s : SavedStore) (as : List StoreAct) : List Item :=
  (s.store.items.map Item.announced).reverse ++ s.machine.collect announces as s

theorem grows_newest {born new : List Item}
    (h : s.store.items.map Item.announced = born.reverse.take limit) (hgrows : s.Grows new s')
    (hnew : new.length ≤ 1) : s'.store.items.map Item.announced = (born ++ new).reverse.take limit := by
  have hreverse : new.reverse = new := by
    match new, hnew with
    | [], _ => rfl
    | [_], _ => rfl
  rw [hgrows, h, List.reverse_append, hreverse, List.take_append, List.take_append, List.take_take,
    Nat.min_eq_left (Nat.sub_le ..)]

theorem length_announces (s : SavedStore) (a : StoreAct) : (s.announces a).length ≤ 1 := by
  unfold announces
  split
  · split <;> simp
  · simp

theorem run_keeps {as : List StoreAct} {s₀ : SavedStore} (h : s₀.Consistent)
    (run : s₀.machine.Run Sound as s) : s.Consistent ∧
      s.store.items.map Item.announced = (s₀.born as).reverse.take limit := by
  refine run.history (fun as s => s.Consistent ∧
    s.store.items.map Item.announced = (s₀.born as).reverse.take limit) ⟨h, ?_⟩ ?_
  · have hinit : s₀.born [] = (s₀.store.items.map Item.announced).reverse := List.append_nil _
    rw [hinit, List.reverse_reverse]
    exact h.take_announced.symm
  · intro as s a s' hrun hs hsound hstep
    obtain ⟨hconsistent, hgrows⟩ := step_keeps hs.1 hsound hstep
    refine ⟨hconsistent, ?_⟩
    have hexec : s₀.machine.exec as s₀ = some s := hrun.exec_eq
    have hborn : s₀.born (as ++ [a]) = s₀.born as ++ s.announces a := by
      rw [born, born, Machine.collect_snoc hexec, List.append_assoc]
    rw [hborn]
    exact grows_newest hs.2 hgrows (length_announces s a)

end SavedStore

/-- After every run of sound calls and whatever other programs do to other files, the store keeps the
    newest items, and every sound call is durable. -/
theorem store_durable {fs : Files} {path : Path} {readable onChange : Bool} {s₀ s : SavedStore}
    {as : List StoreAct} (hopen : SavedStore.openFile fs path readable onChange = .ok s₀)
    (run : s₀.machine.Run SavedStore.Sound as s) :
    s.Keeps (s₀.born as) ∧ ∀ c, s.Sound (.call c) → s.Durable c := by
  obtain ⟨hconsistent, hnewest⟩ := SavedStore.run_keeps (SavedStore.consistent_open hopen) run
  exact ⟨⟨hconsistent.few, hconsistent.distinct, hnewest⟩,
    fun c hsound => SavedStore.durable_call hconsistent hsound⟩

/-! ## Clocks that are not past the epoch -/

namespace SavedStore

variable {s s' : SavedStore} {io : CallIo} {d : RawDraft} {item : Item}

theorem Saved.valid (h : s.Saved) : validRecords [] s.store.items = true := by
  obtain ⟨t, hopen, hstore⟩ := h.reopens true
  rw [← hstore]
  exact (consistent_open hopen).valid

/-- `Open` reads an announcement back only if it was made past the epoch. -/
theorem clock_of_saved (htemp : io.tempPath s.path ≠ s.path)
    (hcreate : s.create io d = (s', .ok item)) (h : s'.Saved) : 0 < io.now.toInt := by
  obtain ⟨e, herror, -⟩ | ⟨draft, bytes, new, -, -, rfl, -, hcommit⟩ := create_cases htemp hcreate
  · cases herror
  obtain ⟨e, herror, -⟩ | ⟨-, -, hitems, -⟩ := commit_cases htemp hcommit
  · cases herror
  have hmem : newItem draft bytes io.now ∈ s'.store.items := by
    rw [hitems]
    exact List.mem_cons_self
  have hvalid := (validRecords_iff.mp h.valid).1 _ hmem
  simp only [validRecord, Bool.and_eq_true, decide_eq_true_eq] at hvalid
  exact hvalid.1.1.2

theorem create_eq (s : SavedStore) (io : CallIo) {draft : Draft}
    {bytes : { bytes : Bytes // bytes.length = 16 }} (hdraft : d.validate = .ok draft)
    (hbytes : io.random = some bytes) :
    s.create io d = ((s.commit io (s.announced (newItem draft bytes io.now))).1,
      (s.commit io (s.announced (newItem draft bytes io.now))).2.map
        fun _ => newItem draft bytes io.now) := by
  simp only [create, hdraft, hbytes]
  rfl

end SavedStore

/-- A store that has no file yet. -/
def newStore : SavedStore := ⟨.empty, [ascii "notifications.json"], ⟨[]⟩, none⟩

theorem openFile_newStore : SavedStore.openFile .empty newStore.path true false = .ok newStore := rfl

def firstIo (now : Int64) : CallIo where
  random := some ⟨List.replicate 16 0, rfl⟩
  now := now
  suffix := ascii "1"

def firstDraft : RawDraft where
  title := Utf8.encode ['t']
  body := Utf8.encode ['b']
  level := Utf8.encode "info".toList

theorem validate_firstDraft : firstDraft.validate = .ok ⟨['t'], ['b'], "info".toList⟩ := by
  simp only [firstDraft, RawDraft.validate, Utf8.runes?_encode, Utf8.runes_encode]
  rfl

/-- The first announcement succeeds at any time. -/
theorem create_firstDraft (now : Int64) :
    ∃ s item, newStore.create (firstIo now) firstDraft = (s, .ok item) :=
  ⟨_, _, newStore.create_eq (firstIo now) validate_firstDraft rfl⟩

theorem tempPath_firstIo (now : Int64) : (firstIo now).tempPath newStore.path ≠ newStore.path := by
  show [ascii ".notifications-1"] ≠ [ascii "notifications.json"]
  decide

/-- A first announcement in the second after the epoch. -/
theorem store_durable_firstDraft :
    (newStore.call (.create (firstIo 1) firstDraft)).1.Keeps
        (newStore.born [.call (.create (firstIo 1) firstDraft)]) ∧
      ∀ c, (newStore.call (.create (firstIo 1) firstDraft)).1.Sound (.call c) →
        (newStore.call (.create (firstIo 1) firstDraft)).1.Durable c := by
  have hsound : newStore.Sound (.call (.create (firstIo 1) firstDraft)) :=
    ⟨tempPath_firstIo 1, fun _ _ => ⟨by decide, fun _ _ => by simp [newStore]⟩⟩
  exact store_durable openFile_newStore (.step .init hsound rfl)

theorem not_store_durable : ¬∀ (fs : Files) (path : Path) (readable onChange : Bool) (s₀ s : SavedStore)
    (as : List StoreAct), SavedStore.openFile fs path readable onChange = .ok s₀ →
      s₀.machine.Run Machine.anyStep as s → s.Keeps (s₀.born as) ∧ ∀ c, s.Durable c := by
  intro h
  have hdurable : newStore.Durable (.create (firstIo 0) firstDraft) :=
    (h _ _ _ _ _ _ _ openFile_newStore .init).2 _
  obtain ⟨s, item, hcreate⟩ := create_firstDraft 0
  have hsaved := hdurable.saved (by simp [SavedStore.call, hcreate, Except.map])
  simp only [SavedStore.call, hcreate] at hsaved
  exact absurd (SavedStore.clock_of_saved (tempPath_firstIo 0) hcreate hsaved) (by decide)

end CrossTransfer.Notification
