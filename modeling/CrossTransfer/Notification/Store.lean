import Mathlib.Data.List.Basic
import Mathlib.Data.List.Nodup

/-! # The notification store

`server/internal/notification/store.go`: the announcements of the operator, newest first, of which
at most 50 are kept. Every change is saved before it takes effect, and the active announcements are
published under the same lock.

`Retains` relates the store to all announcements ever made: it holds the newest of them, and a
revoked one does not come back.
-/

namespace CrossTransfer.Notification

/-! ## Drafts -/

/-- A string, as the code points it holds. -/
abbrev Text := List Char

/-- `unicode.IsSpace`. -/
def isSpace (c : Char) : Bool :=
  [0x09, 0x0A, 0x0B, 0x0C, 0x0D, 0x20, 0x85, 0xA0, 0x1680, 0x2028, 0x2029, 0x202F, 0x205F,
    0x3000].contains c.toNat || (0x2000 ≤ c.toNat && c.toNat ≤ 0x200A)

/-- `strings.TrimSpace`. -/
def trimSpace (s : Text) : Text := ((s.dropWhile isSpace).reverse.dropWhile isSpace).reverse

structure Draft where
  title : Text
  body : Text
  level : Text
deriving DecidableEq, Repr

def levels : List Text := ["info".toList, "important".toList, "maintenance".toList]

/-- `Validate`: the trimmed draft. -/
def Draft.validate (d : Draft) : Except String Draft :=
  let d := { d with title := trimSpace d.title, body := trimSpace d.body }
  if d.title.length < 1 || 120 < d.title.length || d.body.length < 1 || 2000 < d.body.length then
    .error "标题需为 1–120 字，正文需为 1–2000 字"
  else if !levels.contains d.level then .error "请选择有效的通知级别"
  else .ok d

/-! ## The store -/

structure Item extends Draft where
  id : Text
  createdAt : Int
  revokedAt : Int := 0
deriving DecidableEq, Repr

/-- `Limit`. -/
def limit : Nat := 50

structure Store where
  /-- Newest first. -/
  items : List Item

/-- What a method of the store reads from its surroundings. -/
structure StoreIo where
  /-- The random id, as hexadecimal digits. -/
  id : Except String Text
  now : Int
  /-- Whether the file was written, synced and renamed. -/
  saved : Except String Unit

def isHexDigit (c : Char) : Bool :=
  ('0' ≤ c && c ≤ '9') || ('a' ≤ c && c ≤ 'f') || ('A' ≤ c && c ≤ 'F')

/-- What `Open` asks of a record; `seen` are the ids before it. -/
def validRecord (seen : List Text) (item : Item) : Bool :=
  item.id.length == 32 && item.id.all isHexDigit && !seen.contains item.id &&
    decide (0 < item.createdAt) && decide (0 ≤ item.revokedAt) && item.toDraft.validate.isOk

def validRecords : List Text → List Item → Bool
  | _, [] => true
  | seen, item :: rest => validRecord seen item && validRecords (seen ++ [item.id]) rest

/-- `Open`; the file may not exist. -/
def openStore (file : Except String (Option (List Item))) : Except String Store :=
  match file with
  | .error e => .error e
  | .ok none => .ok ⟨[]⟩
  | .ok (some items) =>
    if limit < items.length then .error "too many notification records"
    else if !validRecords [] items then .error "invalid notification record"
    else .ok ⟨items⟩

namespace Store

variable (s : Store) (io : StoreIo)

/-- The announcements in `PublishSnapshot`. -/
def active : List Item := s.items.filter fun item => item.revokedAt == 0

/-- `Commit`; what it returns has been published. -/
def commit (items : List Item) : Except String Store :=
  match io.saved with
  | .error e => .error e
  | .ok () => .ok ⟨items⟩

def create (d : Draft) : Except String (Item × Store) :=
  match d.validate, io.id with
  | .error e, _ => .error e
  | .ok _, .error e => .error e
  | .ok d, .ok id =>
    let item : Item := { d with id := id, createdAt := io.now }
    (commit io ((item :: s.items).take limit)).map fun s => (item, s)

/-- The first item with this id, revoked. -/
def revokeFirst (id : Text) (now : Int) : List Item → List Item
  | [] => []
  | item :: rest =>
    if item.id = id then { item with revokedAt := now } :: rest else item :: revokeFirst id now rest

/-- `Revoke`; `none` if nothing had to be committed. -/
def revoke (id : Text) : Except String (Option Store) :=
  match s.items.find? fun item => item.id == id with
  | none => .error "notification not found"
  | some item =>
    if item.revokedAt ≠ 0 then .ok none
    else (commit io (revokeFirst id io.now s.items)).map some

end Store

/-! ## What has ever been announced -/

/-- The announcement as it was made. -/
def Item.announced (item : Item) : Item := { item with revokedAt := 0 }

@[simp] theorem id_announced (item : Item) : item.announced.id = item.id := rfl

@[simp] theorem revokedAt_announced (item : Item) : item.announced.revokedAt = 0 := rfl

theorem announced_of_active {item : Item} (h : item.revokedAt = 0) : item.announced = item := by
  cases item
  cases h
  rfl

/-- The store holds the newest of the announcements `born`, which are listed oldest first. -/
structure Store.Retains (s : Store) (born : List Item) : Prop where
  newest : s.items.map Item.announced = born.reverse.take limit
  announced : ∀ item ∈ born, item.revokedAt = 0
  unique : (born.map Item.id).Nodup

namespace Store

variable {s s' : Store} {io : StoreIo} {born : List Item}

theorem validRecords_unique {seen : List Text} {items : List Item} (h : validRecords seen items = true) :
    (items.map Item.id).Nodup ∧ ∀ item ∈ items, item.id ∉ seen := by
  induction items generalizing seen with
  | nil => simp
  | cons item rest ih =>
    rw [validRecords, Bool.and_eq_true] at h
    obtain ⟨hitem, hrest⟩ := h
    obtain ⟨hnodup, hnew⟩ := ih hrest
    have hfirst : item.id ∉ seen := by
      simp only [validRecord, Bool.and_eq_true, Bool.not_eq_true', List.contains_eq_mem,
        decide_eq_false_iff_not] at hitem
      exact hitem.1.1.1.2
    constructor
    · rw [List.map_cons, List.nodup_cons]
      refine ⟨fun hmem => ?_, hnodup⟩
      obtain ⟨other, hother, heq⟩ := List.mem_map.mp hmem
      exact hnew other hother (by simp [heq])
    · intro other hother
      obtain rfl | hother := List.mem_cons.mp hother
      · exact hfirst
      · exact fun hmem => hnew other hother (List.mem_append_left _ hmem)

theorem retains_open {file : Except String (Option (List Item))} (h : openStore file = .ok s) :
    s.Retains (s.items.map Item.announced).reverse := by
  have hitems : s.items.length ≤ limit ∧ (s.items.map Item.id).Nodup := by
    unfold openStore at h
    split at h
    · cases h
    · cases h
      exact ⟨Nat.zero_le _, List.nodup_nil⟩
    · split at h
      · cases h
      · rename_i hfew
        split at h
        · cases h
        · rename_i hvalid
          cases h
          exact ⟨Nat.not_lt.mp hfew, (validRecords_unique (by simpa using hvalid)).1⟩
  refine ⟨?_, fun item hitem => ?_, ?_⟩
  · rw [List.reverse_reverse, List.take_of_length_le (by simpa using hitems.1)]
  · obtain ⟨other, -, rfl⟩ := List.mem_map.mp (List.mem_reverse.mp hitem)
    rfl
  · rw [List.map_reverse, List.map_map, List.nodup_reverse]
    exact hitems.2

/-- An active announcement is one that was made, and one of the last 50. -/
theorem Retains.mem_active (h : s.Retains born) {item : Item} (hitem : item ∈ s.active) :
    item ∈ born.reverse.take limit := by
  obtain ⟨hmem, hactive⟩ := List.mem_filter.mp hitem
  rw [← h.newest, ← announced_of_active (beq_iff_eq.mp hactive)]
  exact List.mem_map_of_mem hmem

theorem commit_ok {items : List Item} (h : commit io items = .ok s') : s'.items = items := by
  unfold commit at h
  split at h
  · cases h
  · cases h
    rfl

/-- What a successful `Create` changes. -/
theorem create_ok {d : Draft} {item : Item} (h : s.create io d = .ok (item, s')) :
    io.id = .ok item.id ∧ item.revokedAt = 0 ∧ s'.items = (item :: s.items).take limit := by
  unfold create at h
  split at h
  · cases h
  · cases h
  · rename_i d' id hvalid hid
    dsimp only at h
    cases hcommit : commit io (({ d' with id := id, createdAt := io.now } :: s.items).take limit) with
    | error e => simp [hcommit, Except.map] at h
    | ok t =>
      rw [hcommit] at h
      cases h
      exact ⟨hid, rfl, commit_ok hcommit⟩

theorem Retains.create {d : Draft} {item : Item} (h : s.Retains born)
    (hcreate : s.create io d = .ok (item, s')) (hfresh : item.id ∉ born.map Item.id) :
    s'.Retains (born ++ [item]) := by
  obtain ⟨-, hactive, hitems⟩ := create_ok hcreate
  refine ⟨?_, fun other hother => ?_, ?_⟩
  · rw [hitems, List.reverse_append, List.reverse_singleton, List.singleton_append, List.map_take,
      List.map_cons, h.newest, announced_of_active hactive]
    simp only [limit, List.take_succ_cons, List.take_take]
    rfl
  · obtain hother | hother := List.mem_append.mp hother
    · exact h.announced other hother
    · rw [List.mem_singleton.mp hother, hactive]
  · rw [List.map_append, List.nodup_append]
    refine ⟨h.unique, List.nodup_singleton _, ?_⟩
    rintro a ha b hb rfl
    rw [List.map_singleton, List.mem_singleton] at hb
    exact hfresh (hb ▸ ha)

theorem announced_revokeFirst (id : Text) (now : Int) (items : List Item) :
    (revokeFirst id now items).map Item.announced = items.map Item.announced := by
  induction items with
  | nil => rfl
  | cons item rest ih =>
    rw [revokeFirst]
    split
    · rfl
    · rw [List.map_cons, List.map_cons, ih]

/-- What a successful `Revoke` changes. -/
theorem revoke_ok {id : Text} (h : s.revoke io id = .ok (some s')) :
    s'.items = revokeFirst id io.now s.items ∧
      ∃ item, s.items.find? (fun item => item.id == id) = some item ∧ item.revokedAt = 0 := by
  unfold revoke at h
  split at h
  · cases h
  · rename_i item hfind
    split at h
    · cases h
    · rename_i hactive
      cases hcommit : commit io (revokeFirst id io.now s.items) with
      | error e => simp [hcommit, Except.map] at h
      | ok t =>
        rw [hcommit] at h
        cases h
        exact ⟨commit_ok hcommit, item, hfind, not_not.mp hactive⟩

theorem Retains.revoke {id : Text} (h : s.Retains born) (hrevoke : s.revoke io id = .ok (some s')) :
    s'.Retains born := by
  refine ⟨?_, h.announced, h.unique⟩
  rw [(revoke_ok hrevoke).1, announced_revokeFirst, h.newest]

/-! ## What is active -/

theorem mem_active_create {d : Draft} {item other : Item} (hcreate : s.create io d = .ok (item, s'))
    (h : other ∈ s'.active) : other = item ∨ other ∈ s.active := by
  obtain ⟨hmem, hactive⟩ := List.mem_filter.mp h
  rw [(create_ok hcreate).2.2] at hmem
  exact (List.mem_cons.mp (List.mem_of_mem_take hmem)).imp_right
    fun hold => List.mem_filter.mpr ⟨hold, hactive⟩

theorem mem_active_revokeFirst {id : Text} {now : Int} {items : List Item} {item other : Item}
    (hfind : items.find? (fun item => item.id == id) = some item) (hactive : item.revokedAt = 0)
    (hother : other.revokedAt = 0) (h : other ∈ revokeFirst id now items) : other ∈ items := by
  induction items with
  | nil => cases h
  | cons first rest ih =>
    rw [revokeFirst] at h
    by_cases hid : first.id = id
    · -- Also at the time 0, when the mark is that of an active item.
      rw [List.find?_cons_of_pos (by simpa using hid)] at hfind
      cases hfind
      rw [if_pos hid] at h
      obtain rfl | h := List.mem_cons.mp h
      · have hnow : now = 0 := hother
        rw [hnow, ← hactive]
        exact List.mem_cons_self
      · exact List.mem_cons_of_mem _ h
    · rw [List.find?_cons_of_neg (by simpa using hid)] at hfind
      rw [if_neg hid] at h
      obtain rfl | h := List.mem_cons.mp h
      · exact List.mem_cons_self
      · exact List.mem_cons_of_mem _ (ih hfind h)

/-- A revoked announcement does not come back. -/
theorem mem_active_revoke {id : Text} {other : Item} (hrevoke : s.revoke io id = .ok (some s'))
    (h : other ∈ s'.active) : other ∈ s.active := by
  obtain ⟨hitems, item, hfind, hactive⟩ := revoke_ok hrevoke
  obtain ⟨hmem, hother⟩ := List.mem_filter.mp h
  rw [hitems] at hmem
  exact List.mem_filter.mpr
    ⟨mem_active_revokeFirst hfind hactive (beq_iff_eq.mp hother) hmem, hother⟩

end Store

end CrossTransfer.Notification
