import CrossTransfer.Library.CheckedList
import CrossTransfer.Library.JsonPrinter
import CrossTransfer.Library.Utf8Runes
import CrossTransfer.Notification.Store

/-! # Announcements as JSON

The file holds `json.MarshalIndent` of the items, a snapshot is `json.Marshal` of the active ones, and
`Open` reads the file with `json.Unmarshal`: keys are compared without regard to case, unknown keys are
skipped, and `null` leaves a field as it is.

What has been marshalled is read back (`unmarshal_marshalIndent`, `lists_marshalSnapshot`).
-/

namespace CrossTransfer.Notification

open CrossTransfer.Library

/-! ## Writing -/

/-- An `int64`. -/
def IsInt64 (n : Int) : Prop := -2 ^ 63 ≤ n ∧ n < 2 ^ 63

instance (n : Int) : Decidable (IsInt64 n) := inferInstanceAs (Decidable (_ ∧ _))

/-- An item, without `revoked_at` if it is zero. -/
def Item.toJson (item : Item) : Json.Value :=
  .obj ([("title".toList, .str item.title), ("body".toList, .str item.body),
    ("level".toList, .str item.level), ("id".toList, .str item.id),
    ("created_at".toList, .number (.ofInt item.createdAt))] ++
    if item.revokedAt = 0 then [] else [("revoked_at".toList, .number (.ofInt item.revokedAt))])

/-- `json.MarshalIndent(items, "", "  ")` -/
def marshalIndent (items : List Item) : List UInt8 :=
  Utf8.encode (Json.print .indented 0 (.arr (items.map Item.toJson)))

/-- The snapshot of `PublishSnapshot`. -/
def marshalSnapshot (active : List Item) : List UInt8 :=
  Utf8.encode (Json.print .compact 0 (.obj [("type".toList, .str "notifications".toList),
    ("items".toList, .arr (active.map Item.toJson))]))

/-! ## Reading -/

inductive Field where
  | title
  | body
  | level
  | id
  | createdAt
  | revokedAt
deriving DecidableEq

def Field.name : Field → Text
  | .title => "title".toList
  | .body => "body".toList
  | .level => "level".toList
  | .id => "id".toList
  | .createdAt => "created_at".toList
  | .revokedAt => "revoked_at".toList

def fields : List Field := [.title, .body, .level, .id, .createdAt, .revokedAt]

/-- `foldRune` for the letters of the field names, which are ASCII: only two other characters fold to a
    letter of ASCII. -/
def foldRune (c : Char) : Char :=
  if c = '\u017F' then 'S' else if c = '\u212A' then 'K' else c.toUpper

/-- The field that a key is for; the names differ by more than their case. -/
def fieldOf (key : Text) : Option Field :=
  fields.find? fun f => f.name.map foldRune == key.map foldRune

/-- Store a value in a field; `none` if it has another type. -/
def Item.set (item : Item) : Field → Json.Value → Option Item
  | _, .null => some item
  | .title, .str s => some { item with title := s }
  | .body, .str s => some { item with body := s }
  | .level, .str s => some { item with level := s }
  | .id, .str s => some { item with id := s }
  | .createdAt, .number n => n.toInt64.map fun t => { item with createdAt := t }
  | .revokedAt, .number n => n.toInt64.map fun t => { item with revokedAt := t }
  | _, _ => none

def Item.setMember (item : Item) (m : Text × Json.Value) : Option Item :=
  match fieldOf m.1 with
  | none => some item
  | some f => item.set f m.2

/-- The zero `Item`. -/
def Item.zero : Item := { title := [], body := [], level := [], id := [], createdAt := 0 }

def decodeItem : Json.Value → Option Item
  | .null => some .zero
  | .obj members => members.foldlM Item.setMember .zero
  | _ => none

def decodeItems : Json.Value → Option (List Item)
  | .null => some []
  | .arr items => items.mapM decodeItem
  | _ => none

/-- `json.Unmarshal` into the items. -/
def unmarshal (data : List UInt8) : Option (List Item) :=
  (Json.read (Utf8.runes data)).bind decodeItems

/-- The bytes are a message with these items. -/
def Lists (snapshot : List UInt8) (items : List Item) : Prop :=
  ∃ list, Json.read (Utf8.runes snapshot) =
      some (.obj [("type".toList, .str "notifications".toList), ("items".toList, .arr list)]) ∧
    decodeItems (.arr list) = some items

/-! ## Round trips -/

/-- The times are what the fields can hold. -/
def Item.InRange (item : Item) : Prop := IsInt64 item.createdAt ∧ IsInt64 item.revokedAt

theorem fieldOf_name (f : Field) : fieldOf f.name = some f := by
  cases f <;> decide

theorem setMember_name (item : Item) (f : Field) (v : Json.Value) :
    item.setMember (f.name, v) = item.set f v := by
  rw [Item.setMember, fieldOf_name]

theorem set_revokedAt {item : Item} {t : Int} (h : IsInt64 t) :
    item.set .revokedAt (.number (.ofInt t)) = some { item with revokedAt := t } := by
  simp [Item.set, Json.toInt64_ofInt h]

theorem decodeItem_toJson {item : Item} (h : item.InRange) : decodeItem item.toJson = some item := by
  obtain ⟨hcreated, hrevoked⟩ := h
  have hmembers : ([("title".toList, .str item.title), ("body".toList, .str item.body),
      ("level".toList, .str item.level), ("id".toList, .str item.id),
      ("created_at".toList, .number (.ofInt item.createdAt))] : List (Text × Json.Value)).foldlM
        Item.setMember .zero = some { item with revokedAt := 0 } := by
    -- One member after another, each under the name of its field.
    show List.foldlM Item.setMember Item.zero [(Field.title.name, .str item.title),
      (Field.body.name, .str item.body), (Field.level.name, .str item.level),
      (Field.id.name, .str item.id), (Field.createdAt.name, .number (.ofInt item.createdAt))] = _
    simp only [List.foldlM_cons, List.foldlM_nil, setMember_name]
    simp [Item.set, Item.zero, Json.toInt64_ofInt hcreated]
  rw [Item.toJson, decodeItem, List.foldlM_append, hmembers]
  by_cases hactive : item.revokedAt = 0
  · rw [if_pos hactive]
    exact congrArg some (announced_of_active hactive)
  · rw [if_neg hactive]
    show (({ item with revokedAt := 0 } : Item).setMember (Field.revokedAt.name, _)).bind _ = _
    rw [setMember_name, set_revokedAt hrevoked]
    rfl

theorem decodeItems_map {items : List Item} (h : ∀ item ∈ items, item.InRange) :
    decodeItems (.arr (items.map Item.toJson)) = some items := by
  rw [decodeItems]
  induction items with
  | nil => rfl
  | cons item rest ih =>
    rw [List.forall_mem_cons] at h
    simp [decodeItem_toJson h.1, ih h.2]

theorem membersDepth_toJson (item : Item) : item.toJson.depth = 1 := by
  unfold Item.toJson
  split <;> simp [Json.Value.depth, Json.membersDepth]

theorem itemsDepth_toJson (items : List Item) : Json.itemsDepth (items.map Item.toJson) ≤ 1 := by
  induction items with
  | nil => simp [Json.itemsDepth]
  | cons item rest ih => simp [Json.itemsDepth, membersDepth_toJson, ih]

/-- The file of some items decodes to them. -/
theorem unmarshal_marshalIndent {items : List Item} (h : ∀ item ∈ items, item.InRange) :
    unmarshal (marshalIndent items) = some items := by
  have hdepth : (Json.Value.arr (items.map Item.toJson)).depth ≤ Json.maxDepth := by
    have hitems := itemsDepth_toJson items
    rw [Json.Value.depth, Json.maxDepth]
    omega
  rw [unmarshal, marshalIndent, Utf8.runes_encode, Json.read_print _ hdepth, Option.bind_some,
    decodeItems_map h]

/-- The snapshot of some items lists them. -/
theorem lists_marshalSnapshot {items : List Item} (h : ∀ item ∈ items, item.InRange) :
    Lists (marshalSnapshot items) items := by
  refine ⟨items.map Item.toJson, ?_, decodeItems_map h⟩
  rw [marshalSnapshot, Utf8.runes_encode]
  apply Json.read_print
  have hitems := itemsDepth_toJson items
  simp only [Json.Value.depth, Json.membersDepth, Json.maxDepth]
  omega

/-! ## What is read -/

theorem isInt64_toInt64 {n : Json.Number} {t : Int} (h : n.toInt64 = some t) : IsInt64 t := by
  unfold Json.Number.toInt64 at h
  simp only [Option.filter_eq_some_iff, Bool.and_eq_true, decide_eq_true_eq] at h
  exact h.2

theorem inRange_set {item item' : Item} {f : Field} {v : Json.Value} (h : item.InRange)
    (hset : item.set f v = some item') : item'.InRange := by
  unfold Item.set at hset
  split at hset
  case h_6 => 
    obtain ⟨t, ht, rfl⟩ := Option.map_eq_some_iff.mp hset
    exact ⟨isInt64_toInt64 ht, h.2⟩
  case h_7 =>
    obtain ⟨t, ht, rfl⟩ := Option.map_eq_some_iff.mp hset
    exact ⟨h.1, isInt64_toInt64 ht⟩
  all_goals cases hset <;> exact h

theorem inRange_setMember {item item' : Item} {m : Text × Json.Value} (h : item.InRange)
    (hset : item.setMember m = some item') : item'.InRange := by
  unfold Item.setMember at hset
  split at hset
  · cases hset
    exact h
  · exact inRange_set h hset

theorem inRange_setMembers {members : List (Text × Json.Value)} {item item' : Item}
    (h : item.InRange) (hset : members.foldlM Item.setMember item = some item') : item'.InRange := by
  induction members generalizing item with
  | nil =>
    cases hset
    exact h
  | cons m members ih =>
    obtain ⟨mid, hfirst, hrest⟩ := Option.bind_eq_some_iff.mp hset
    exact ih (inRange_setMember h hfirst) hrest

theorem inRange_decodeItem {v : Json.Value} {item : Item} (h : decodeItem v = some item) :
    item.InRange := by
  have hzero : Item.zero.InRange := ⟨by decide, by decide⟩
  unfold decodeItem at h
  split at h
  · cases h
    exact hzero
  · exact inRange_setMembers hzero h
  · cases h

/-- The times of the items that were read are in range. -/
theorem inRange_unmarshal {data : List UInt8} {items : List Item} (h : unmarshal data = some items) :
    ∀ item ∈ items, item.InRange := by
  obtain ⟨v, -, hv⟩ := Option.bind_eq_some_iff.mp h
  unfold decodeItems at hv
  split at hv
  · cases hv
    simp
  · rename_i list
    intro item hitem
    obtain ⟨w, -, hw⟩ := CheckedList.mem_of_mapM hv hitem
    exact inRange_decodeItem hw
  · cases hv

end CrossTransfer.Notification
