import CrossTransfer.Library.CappedSet
import CrossTransfer.Notification.Store

/-! # The inbox of a client

`app/lib/state/notification_model.dart` and `app/lib/state/notifications.dart`: the client checks the
announcements of a snapshot one by one, remembers the ids it has seen in its preferences, and alerts
the user about the first one that it has not seen.

`mem_parseList` says which announcements of the store get through, and `seen_load` that the ids
survive a restart.
-/

namespace CrossTransfer.Notification

open CrossTransfer.Library

/-! ## Decoded JSON -/

inductive Value where
  | null
  | bool (b : Bool)
  | int (n : Int)
  /-- A number with a fraction or an exponent; `zero` says whether it is equal to 0. -/
  | double (zero : Bool)
  | str (s : Text)
  | list (items : List Value)
  | map (entries : List (Text × Value))

namespace Value

/-- `item[key]`, of a map. -/
def field (key : String) : List (Text × Value) → Value
  | [] => .null
  | (k, v) :: rest => if k = key.toList then v else field key rest

/-- `cached is Map ? cached[key] : null`. -/
def fieldOf (key : String) : Value → Value
  | .map entries => field key entries
  | _ => .null

/-- `value != null && value != 0`. -/
def isSet : Value → Bool
  | .null => false
  | .int n => n != 0
  | .double zero => !zero
  | _ => true

/-- What `whereType<String>()` keeps. -/
def string? : Value → Option Text
  | .str s => some s
  | _ => none

end Value

/-- `toJson` of the store's `Item`, where `revoked_at` is left out if it is zero. -/
def Item.toValue (item : Item) : Value :=
  .map ([("title".toList, .str item.title), ("body".toList, .str item.body),
      ("level".toList, .str item.level), ("id".toList, .str item.id),
      ("created_at".toList, .int item.createdAt)] ++
    if item.revokedAt = 0 then [] else [("revoked_at".toList, .int item.revokedAt)])

/-! ## `ServiceNotification` -/

structure ServiceNotification where
  id : Text
  title : Text
  body : Text
  level : Text
  createdAt : Int
deriving DecidableEq, Repr

namespace ServiceNotification

def toJson (n : ServiceNotification) : Value :=
  .map [("id".toList, .str n.id), ("title".toList, .str n.title), ("body".toList, .str n.body),
    ("level".toList, .str n.level), ("created_at".toList, .int n.createdAt)]

/-- `^[0-9a-f]{32}$`. -/
def isId (s : Text) : Bool :=
  s.length == 32 && s.all fun c => ('0' ≤ c && c ≤ '9') || ('a' ≤ c && c ≤ 'f')

/-- What `trim` of a string removes: white space, and the byte order mark. -/
def isTrimmed (c : Char) : Bool := isSpace c || c.toNat == 0xFEFF

def trim (s : Text) : Text := ((s.dropWhile isTrimmed).reverse.dropWhile isTrimmed).reverse

/-- An item of the list, unless its id has been there before. -/
def parse : Value → Option ServiceNotification
  | .map item =>
    match Value.field "id" item, Value.field "title" item, Value.field "body" item,
      Value.field "level" item, Value.field "created_at" item with
    | .str id, .str title, .str body, .str level, .int createdAt =>
      if !isId id || (trim title).isEmpty || 120 < title.length || (trim body).isEmpty ||
        2000 < body.length || !levels.contains level || createdAt ≤ 0 || 8640000000000 < createdAt ||
        (Value.field "revoked_at" item).isSet then
        none
      else some ⟨id, title, body, level, createdAt⟩
    | _, _, _, _, _ => none
  | _ => none

/-- The loop of `parseList`; `ids` are those accepted before. -/
def parseItems : List Text → List Value → List ServiceNotification
  | _, [] => []
  | ids, v :: vs =>
    match parse v with
    | none => parseItems ids vs
    | some n => if n.id ∈ ids then parseItems ids vs else n :: parseItems (ids ++ [n.id]) vs

def parseList : Value → List ServiceNotification
  | .list items => parseItems [] (items.take 50)
  | _ => []

/-- An item that is accepted has its own id. -/
theorem field_id_of_parse {v : Value} {n : ServiceNotification} (h : parse v = some n) :
    v.fieldOf "id" = .str n.id := by
  unfold parse at h
  split at h
  · split at h
    · rename_i hid _ _ _ _
      split at h
      · cases h
      · cases h
        exact hid
    · cases h
  · cases h

theorem id_of_parse {item : Item} {n : ServiceNotification} (h : parse item.toValue = some n) :
    n.id = item.id := by
  have hfield : item.toValue.fieldOf "id" = .str item.id := rfl
  rw [field_id_of_parse h] at hfield
  exact Value.str.inj hfield

theorem parseItems_sublist (ids : List Text) (items : List Item) :
    ((parseItems ids (items.map Item.toValue)).map id).Sublist (items.map Item.id) := by
  induction items generalizing ids with
  | nil => exact .slnil
  | cons item items ih =>
    rw [List.map_cons, List.map_cons, parseItems]
    split
    · exact (ih ids).cons _
    · rename_i n hparse
      split
      · exact (ih ids).cons _
      · rw [List.map_cons, id_of_parse hparse]
        exact (ih _).cons_cons _

theorem mem_parseItems {ids : List Text} {items : List Item} {n : ServiceNotification}
    (h : n ∈ parseItems ids (items.map Item.toValue)) :
    ∃ item ∈ items, parse item.toValue = some n := by
  induction items generalizing ids with
  | nil => cases h
  | cons item items ih =>
    rw [List.map_cons, parseItems] at h
    have tail : ∀ {ids}, n ∈ parseItems ids (items.map Item.toValue) →
        ∃ item' ∈ item :: items, parse item'.toValue = some n := fun hmem => by
      obtain ⟨other, hother, hparse⟩ := ih hmem
      exact ⟨other, List.mem_cons_of_mem _ hother, hparse⟩
    split at h
    · exact tail h
    · rename_i m hparse
      split at h
      · exact tail h
      · obtain rfl | h := List.mem_cons.mp h
        · exact ⟨item, List.mem_cons_self, hparse⟩
        · exact tail h

theorem parseItems_mem {ids : List Text} {items : List Item} (unique : (items.map Item.id).Nodup)
    (fresh : ∀ item ∈ items, item.id ∉ ids) {item : Item} {n : ServiceNotification}
    (hitem : item ∈ items) (hparse : parse item.toValue = some n) :
    n ∈ parseItems ids (items.map Item.toValue) := by
  induction items generalizing ids with
  | nil => cases hitem
  | cons first items ih =>
    rw [List.map_cons, List.nodup_cons] at unique
    rw [List.forall_mem_cons] at fresh
    rw [List.map_cons, parseItems]
    cases hfirst : parse first.toValue with
    | none =>
      obtain rfl | hitem := List.mem_cons.mp hitem
      · rw [hfirst] at hparse
        cases hparse
      · exact ih unique.2 fresh.2 hitem
    | some m =>
      have hid := id_of_parse hfirst
      dsimp only
      rw [if_neg (hid ▸ fresh.1)]
      obtain rfl | hitem := List.mem_cons.mp hitem
      · rw [hfirst] at hparse
        cases hparse
        exact List.mem_cons_self
      · refine List.mem_cons_of_mem _ (ih unique.2 (fun other hother => ?_) hitem)
        rw [List.mem_append, List.mem_singleton, hid, not_or]
        exact ⟨fresh.2 other hother, fun heq => unique.1 (heq ▸ List.mem_map_of_mem hother)⟩

/-- Of the announcements in a snapshot, which are few and have different ids, those are listed that
    are accepted. -/
theorem mem_parseList {items : List Item} (few : items.length ≤ limit)
    (unique : (items.map Item.id).Nodup) {n : ServiceNotification} :
    n ∈ parseList (.list (items.map Item.toValue)) ↔
      ∃ item ∈ items, parse item.toValue = some n := by
  have htake : (items.map Item.toValue).take 50 = items.map Item.toValue :=
    List.take_of_length_le (by rwa [List.length_map])
  rw [parseList, htake]
  constructor
  · exact mem_parseItems
  · rintro ⟨item, hitem, hparse⟩
    exact parseItems_mem unique (fun _ _ => List.not_mem_nil) hitem hparse

end ServiceNotification

/-! ## `NotificationInbox` -/

structure NotificationInbox where
  items : List ServiceNotification := []
  read : List Text := []
  /-- In the order of insertion. -/
  seen : List Text := []

/-- How many ids are kept. -/
def seenLimit : Nat := 200

namespace NotificationInbox

/-- `_ids`. -/
def ids : Value → List Text
  | .list items => insertAll [] ((items.filterMap Value.string?).take seenLimit)
  | _ => []

/-- The inbox that `build` reads from the preferences. -/
def load (cached : Value) : NotificationInbox where
  items := ServiceNotification.parseList (cached.fieldOf "items")
  read := ids (cached.fieldOf "read")
  seen := ids (cached.fieldOf "seen")

/-- What `_save` writes. -/
def toPrefs (inbox : NotificationInbox) : Value :=
  .map [("items".toList, .list (inbox.items.map ServiceNotification.toJson)),
    ("read".toList, .list (inbox.read.map Value.str)),
    ("seen".toList, .list (inbox.seen.map Value.str))]

/-- `_merge`. -/
def merge (previous : NotificationInbox) (items : List ServiceNotification) : NotificationInbox :=
  let active := insertAll [] (items.map ServiceNotification.id)
  { items := items
    read := previous.read.filter fun id => active.contains id
    seen := keepLast seenLimit (insertAll previous.seen active) }

theorem seen_merge (previous : NotificationInbox) (items : List ServiceNotification) :
    (previous.merge items).seen = keepLast seenLimit
      (insertAll previous.seen (insertAll [] (items.map ServiceNotification.id))) := by
  rw [merge]

/-- The items that have not been seen. -/
def fresh (inbox : NotificationInbox) (items : List ServiceNotification) :
    List ServiceNotification :=
  items.filter fun n => !inbox.seen.contains n.id

/-- Whether `markRead` has something to do. -/
def canMark (inbox : NotificationInbox) (id : Text) : Bool :=
  !inbox.read.contains id && inbox.items.any fun n => n.id == id

def markRead (inbox : NotificationInbox) (id : Text) : NotificationInbox :=
  { inbox with read := inbox.read ++ [id] }

def markAllRead (inbox : NotificationInbox) : NotificationInbox :=
  { inbox with read := insertAll [] (inbox.items.map ServiceNotification.id) }

/-- What has been seen survives a restart. -/
theorem seen_load {inbox : NotificationInbox} (nodup : inbox.seen.Nodup)
    (few : inbox.seen.length ≤ seenLimit) : (load inbox.toPrefs).seen = inbox.seen := by
  have hstrings : (inbox.seen.map Value.str).filterMap Value.string? = inbox.seen := by
    rw [List.filterMap_map]
    exact List.filterMap_some
  change insertAll [] (((inbox.seen.map Value.str).filterMap Value.string?).take seenLimit) = _
  rw [hstrings, List.take_of_length_le few]
  exact insertAll_nil_of_nodup nodup

end NotificationInbox

end CrossTransfer.Notification
