import CrossTransfer.Library.Machine
import CrossTransfer.Notification.Inbox

/-! # Alerts

The store and one client: every commit is published, the client receives the published snapshots in
their order, not necessarily all of them, and it may restart with the preferences that it saved.

The store never shows again what it has once not shown, and of the announcements that it shows 50 are
the newest; so the 200 ids that the client remembers are enough, and no announcement is alerted twice
(`alertedOnce_run`).
-/

namespace CrossTransfer.Notification

open CrossTransfer.Library

/-! ## The client -/

structure Client where
  inbox : NotificationInbox := {}
  /-- `values['service_notifications']`. -/
  prefs : Value := .null
  /-- What the delivery callback was given, oldest first. -/
  alerts : List ServiceNotification := []

namespace Client

def save (c : Client) (inbox : NotificationInbox) : Client :=
  { c with inbox := inbox, prefs := inbox.toPrefs }

/-- `sync`: of what is fresh, the first one is delivered. -/
def sync (c : Client) (items : List ServiceNotification) : Client :=
  { c.save (c.inbox.merge items) with alerts := c.alerts ++ (c.inbox.fresh items).head?.toList }

/-- `build`, with the snapshot that the core holds already. -/
def build (c : Client) (snapshot : Option (List ServiceNotification)) : Client :=
  let initial := { c with inbox := .load c.prefs }
  match snapshot with
  | none => initial
  | some items => initial.sync items

@[simp] theorem inbox_sync (c : Client) (items : List ServiceNotification) :
    (c.sync items).inbox = c.inbox.merge items := rfl

def markRead (c : Client) (id : Text) : Client :=
  if c.inbox.canMark id then c.save (c.inbox.markRead id) else c

def markAllRead (c : Client) : Client := c.save c.inbox.markAllRead

end Client

/-! ## The service -/

/-- What is published. -/
structure Snapshot where
  items : List Item
  /-- How many announcements had ever been made. -/
  made : Nat

namespace Snapshot

/-- The items as the client reads them. -/
def parsed (p : Snapshot) : List ServiceNotification :=
  ServiceNotification.parseList (.list (p.items.map Item.toValue))

def ids (p : Snapshot) : List Text := p.parsed.map ServiceNotification.id

end Snapshot

structure Service where
  store : Store
  /-- All announcements ever made, oldest first. -/
  made : List Item
  /-- Oldest first. -/
  published : List Snapshot
  client : Client := {}
  /-- Which snapshot the client received last. -/
  received : Nat := 0

inductive ServiceAct where
  | create (io : StoreIo) (d : Draft)
  | revoke (io : StoreIo) (id : Text)
  /-- A snapshot arrives. -/
  | sync (k : Nat)
  /-- The client restarts; a snapshot may arrive before the inbox is built. -/
  | restart (k : Option Nat)
  | markRead (id : Text)
  | markAllRead

namespace Service

/-- `Commit`, with its publication. -/
def commit (s : Service) (store : Store) (made : List Item) : Service :=
  { s with
    store := store
    made := made
    published := s.published ++ [⟨store.active, made.length⟩] }

/-- The client receives the snapshot `k`, not before one it has received. -/
def receive (s : Service) (k : Nat) (f : List ServiceNotification → Client) : Option Service :=
  if k < s.received then none
  else s.published[k]?.map fun p => { s with client := f p.parsed, received := k }

def step (s : Service) : ServiceAct → Option Service
  | .create io d =>
    match s.store.create io d with
    | .ok (item, store) =>
      -- The random ids are different.
      if (s.made.map Item.id).contains item.id then none
      else some (s.commit store (s.made ++ [item]))
    | .error _ => some s
  | .revoke io id =>
    match s.store.revoke io id with
    | .ok (some store) => some (s.commit store s.made)
    | .ok none => some s
    | .error _ => some s
  | .sync k => s.receive k s.client.sync
  | .restart none => some { s with client := s.client.build none }
  | .restart (some k) => s.receive k fun items => s.client.build (some items)
  | .markRead id => some { s with client := s.client.markRead id }
  | .markAllRead => some { s with client := s.client.markAllRead }

end Service

/-- A store that `Open` has read and published, and a client without preferences. -/
def service (store : Store) : Machine Service ServiceAct where
  init :=
    let made := (store.items.map Item.announced).reverse
    { store := store, made := made, published := [⟨store.active, made.length⟩] }
  step := Service.step

/-! ## What is published -/

/-- The position of an announcement among all that were made. -/
def ageIn (made : List Item) (id : Text) : Nat := (made.map Item.id).idxOf id

theorem ageIn_lt_iff {made : List Item} {id : Text} :
    ageIn made id < made.length ↔ id ∈ made.map Item.id := by
  rw [ageIn, ← List.length_map Item.id, List.idxOf_lt_length_iff]

theorem ageIn_append {made : List Item} {id : Text} (more : List Item)
    (h : ageIn made id < made.length) : ageIn (made ++ more) id = ageIn made id := by
  rw [ageIn, List.map_append, List.idxOf_append_of_mem (ageIn_lt_iff.mp h), ageIn]

theorem ageIn_of_append {made more : List Item} {id : Text}
    (h : ageIn (made ++ more) id < made.length) : ageIn (made ++ more) id = ageIn made id := by
  by_cases hmem : id ∈ made.map Item.id
  · exact ageIn_append more (ageIn_lt_iff.mpr hmem)
  · rw [ageIn, List.map_append, List.idxOf_append_of_notMem hmem, List.length_map] at h
    omega

theorem ageIn_inj {made : List Item} {x y : Text} (hx : ageIn made x < made.length)
    (h : ageIn made x = ageIn made y) : x = y :=
  (List.idxOf_inj (ageIn_lt_iff.mp hx)).mp h

theorem ageIn_getElem {made : List Item} (unique : (made.map Item.id).Nodup) {i : Nat}
    (hi : i < made.length) : ageIn made made[i].id = i := by
  have hlt : i < (made.map Item.id).length := by rwa [List.length_map]
  have hget : made[i].id = (made.map Item.id)[i] := by simp
  rw [ageIn, hget]
  exact unique.idxOf_getElem _ hlt

/-- Among the announcements from `k` to `m`. -/
theorem ageIn_of_mem {made : List Item} (unique : (made.map Item.id).Nodup) {item : Item} {k m : Nat}
    (h : item ∈ (made.take m).drop k) : k ≤ ageIn made item.id ∧ ageIn made item.id < m := by
  obtain ⟨i, hi, rfl⟩ := List.getElem_of_mem h
  rw [List.length_drop, List.length_take] at hi
  have hage : ageIn made ((made.take m).drop k)[i].id = k + i := by
    rw [List.getElem_drop, List.getElem_take]
    exact ageIn_getElem unique (by omega)
  omega

/-- A snapshot shows some of the newest announcements. -/
structure Snapshot.Shows (made : List Item) (p : Snapshot) : Prop where
  count : p.made ≤ made.length
  shown : p.items.Sublist ((made.take p.made).reverse.take limit)

/-- The snapshot `q`, later than `p`, shows nothing that `p` did not show any more. -/
structure Snapshot.NotBack (made : List Item) (p q : Snapshot) : Prop where
  grows : p.made ≤ q.made
  kept : ∀ item ∈ q.items, item ∈ made.take p.made → item ∈ p.items

namespace Snapshot

variable {made more : List Item} {p q : Snapshot} {item : Item}

theorem Shows.grow (h : p.Shows made) : p.Shows (made ++ more) where
  count := by
    rw [List.length_append]
    exact h.count.trans (Nat.le_add_right _ _)
  shown := by
    rw [List.take_append_of_le_length h.count]
    exact h.shown

theorem NotBack.grow (h : p.NotBack made q) (shows : p.Shows made) :
    p.NotBack (made ++ more) q where
  grows := h.grows
  kept := by
    rw [List.take_append_of_le_length shows.count]
    exact h.kept

theorem Shows.mem (h : p.Shows made) (hitem : item ∈ p.items) :
    item ∈ (made.take p.made).drop (p.made - limit) := by
  have hshown := h.shown.subset hitem
  rw [List.take_reverse, List.mem_reverse, List.length_take, Nat.min_eq_left h.count] at hshown
  exact hshown

theorem Shows.unique (h : p.Shows made) (unique : (made.map Item.id).Nodup) :
    (p.items.map Item.id).Nodup := by
  have hnewest : (((made.take p.made).reverse.take limit).map Item.id).Nodup := by
    refine List.Nodup.sublist ((List.take_sublist _ _).map _) ?_
    rw [List.map_reverse, List.nodup_reverse]
    exact unique.sublist ((List.take_sublist _ _).map _)
  exact hnewest.sublist (h.shown.map _)

theorem Shows.few (h : p.Shows made) : p.items.length ≤ limit :=
  h.shown.length_le.trans (List.length_take_le _ _)

theorem Shows.ids_nodup (h : p.Shows made) (unique : (made.map Item.id).Nodup) : p.ids.Nodup := by
  have hsublist := ServiceNotification.parseItems_sublist [] (p.items.take 50)
  rw [List.map_take] at hsublist
  exact (h.unique unique).sublist (hsublist.trans ((List.take_sublist _ _).map _))

/-- An id that is listed is that of an item. -/
theorem Shows.mem_ids (h : p.Shows made) (unique : (made.map Item.id).Nodup) {id : Text} :
    id ∈ p.ids ↔ ∃ item ∈ p.items, item.id = id ∧
      (ServiceNotification.parse item.toValue).isSome := by
  simp only [ids, parsed, List.mem_map,
    ServiceNotification.mem_parseList h.few (h.unique unique)]
  constructor
  · rintro ⟨n, ⟨item, hitem, hparse⟩, rfl⟩
    exact ⟨item, hitem, (ServiceNotification.id_of_parse hparse).symm, by rw [hparse]; rfl⟩
  · rintro ⟨item, hitem, rfl, hsome⟩
    obtain ⟨n, hparse⟩ := Option.isSome_iff_exists.mp hsome
    exact ⟨n, ⟨item, hitem, hparse⟩, ServiceNotification.id_of_parse hparse⟩

theorem Shows.window (h : p.Shows made) (unique : (made.map Item.id).Nodup) :
    Window (ageIn made) limit p.ids p.made := by
  have aged : ∀ id ∈ p.ids, p.made - limit ≤ ageIn made id ∧ ageIn made id < p.made := by
    intro id hid
    obtain ⟨item, hitem, rfl, -⟩ := (h.mem_ids unique).mp hid
    exact ageIn_of_mem unique (h.mem hitem)
  refine ⟨?_, fun id hid => (aged id hid).2, fun id hid => ?_⟩
  · have hsublist := ServiceNotification.parseItems_sublist [] (p.items.take 50)
    have hlength := hsublist.length_le
    rw [List.length_map, List.length_map] at hlength
    rw [ids, parsed, ServiceNotification.parseList, ← List.map_take, List.length_map]
    exact hlength.trans (List.length_take_le _ _)
  · have hage := (aged id hid).1
    omega

/-- What is listed later, and had been made, was listed. -/
theorem NotBack.kept_ids (h : p.NotBack made q) (showsP : p.Shows made) (showsQ : q.Shows made)
    (unique : (made.map Item.id).Nodup) {id : Text} (hid : id ∈ q.ids)
    (hage : ageIn made id < p.made) : id ∈ p.ids := by
  obtain ⟨item, hitem, rfl, hparse⟩ := (showsQ.mem_ids unique).mp hid
  refine (showsP.mem_ids unique).mpr ⟨item, h.kept item hitem ?_, rfl, hparse⟩
  have hmade : item ∈ made := List.mem_of_mem_take (List.mem_of_mem_drop (showsQ.mem hitem))
  obtain ⟨i, hi, rfl⟩ := List.getElem_of_mem hmade
  rw [ageIn_getElem unique hi] at hage
  exact List.mem_take_iff_getElem.mpr ⟨i, by omega, rfl⟩

end Snapshot

/-! ## What the client knows -/

/-- The client has seen a snapshot that listed `items` when `born` of the announcements `made` were
    there, and everything it has alerted about is older. -/
structure Client.Knows (made : List Item) (c : Client) (items : List Text) (born : Nat) : Prop where
  remembers : Remembers (ageIn made) limit c.inbox.seen items born
  few : c.inbox.seen.length ≤ seenLimit
  prefs : (NotificationInbox.load c.prefs).seen = c.inbox.seen
  alerted : ∀ n ∈ c.alerts, ageIn made n.id < born
  once : (c.alerts.map ServiceNotification.id).Nodup
  count : born ≤ made.length

namespace Client.Knows

variable {made : List Item} {c : Client} {items : List Text} {born : Nat}

theorem grow (h : c.Knows made items born) (more : List Item) :
    c.Knows (made ++ more) items born where
  remembers := h.remembers.congr fun id hid =>
    ageIn_append more ((h.remembers.old id hid).trans_le h.count)
  few := h.few
  prefs := h.prefs
  alerted n hn := by
    rw [ageIn_append more ((h.alerted n hn).trans_le h.count)]
    exact h.alerted n hn
  once := h.once
  count := by
    rw [List.length_append]
    exact h.count.trans (Nat.le_add_right _ _)

/-- A change that forgets nothing, and that is saved. -/
theorem save (h : c.Knows made items born) {inbox : NotificationInbox}
    (same : inbox.seen = c.inbox.seen) : (c.save inbox).Knows made items born where
  remembers := same ▸ h.remembers
  few := same ▸ h.few
  prefs := NotificationInbox.seen_load (same ▸ h.remembers.nodup) (same ▸ h.few)
  alerted := h.alerted
  once := h.once
  count := h.count

theorem load (h : c.Knows made items born) : (c.build none).Knows made items born where
  remembers := h.prefs ▸ h.remembers
  few := h.prefs ▸ h.few
  prefs := rfl
  alerted := h.alerted
  once := h.once
  count := h.count

/-- A snapshot that shows nothing that is gone: what has not been seen is new. -/
theorem sync {p : Snapshot} (h : c.Knows made items born) (unique : (made.map Item.id).Nodup)
    (shows : p.Shows made) (grows : born ≤ p.made)
    (kept : ∀ id ∈ p.ids, ageIn made id < born → id ∈ items) :
    (c.sync p.parsed).Knows made p.ids p.made := by
  have window := shows.window unique
  have fresh : ∀ n ∈ c.inbox.fresh p.parsed, n.id ∈ p.ids ∧ n.id ∉ c.inbox.seen := by
    intro n hn
    obtain ⟨hmem, hnew⟩ := List.mem_filter.mp hn
    exact ⟨List.mem_map_of_mem hmem, by simpa using hnew⟩
  have hseen : (c.sync p.parsed).inbox.seen = keepLast seenLimit (insertAll c.inbox.seen p.ids) := by
    rw [inbox_sync, NotificationInbox.seen_merge, ← Snapshot.ids,
      insertAll_nil_of_nodup (shows.ids_nodup unique)]
  have known : ∀ x, x ∈ c.inbox.seen ∨ x ∈ p.ids → ageIn made x < made.length := by
    rintro x (hx | hx)
    · exact (h.remembers.old x hx).trans_le h.count
    · exact (window.old x hx).trans_le shows.count
  have room : 2 * limit ≤ seenLimit := by simp [limit, seenLimit]
  have remembers : Remembers (ageIn made) limit (c.sync p.parsed).inbox.seen p.ids p.made := by
    rw [hseen]
    refine h.remembers.next window grows kept (fun x y hx _ heq => ?_) room
    exact ageIn_inj (known x hx) heq
  have few : (c.sync p.parsed).inbox.seen.length ≤ seenLimit := by
    rw [hseen]
    exact length_keepLast_le _ _
  refine ⟨remembers, few, NotificationInbox.seen_load remembers.nodup few, ?_, ?_, shows.count⟩
  · intro n hn
    obtain hn | hn := List.mem_append.mp hn
    · exact (h.alerted n hn).trans_le grows
    · rw [Option.mem_toList] at hn
      exact window.old _ (fresh n (List.mem_of_mem_head? hn)).1
  · change ((c.alerts ++ (c.inbox.fresh p.parsed).head?.toList).map _).Nodup
    rw [List.map_append, List.nodup_append]
    refine ⟨h.once, ?_, ?_⟩
    · cases (c.inbox.fresh p.parsed).head? with
      | none => exact List.nodup_nil
      | some n => exact List.nodup_singleton _
    · -- What is alerted now is at least as new as anything seen before.
      intro a ha b hb heq
      obtain ⟨m, hm, rfl⟩ := List.mem_map.mp ha
      obtain ⟨n, hn, rfl⟩ := List.mem_map.mp hb
      rw [Option.mem_toList] at hn
      obtain ⟨hlisted, hnew⟩ := fresh n (List.mem_of_mem_head? hn)
      have hborn := h.remembers.born_le_of_not_seen kept hlisted hnew
      rw [← heq] at hborn
      exact absurd (h.alerted m hm) (Nat.not_lt.mpr hborn)

end Client.Knows

/-! ## Runs -/

/-- Store, snapshots and client after a run. -/
structure Service.Joint (s : Service) : Prop where
  retains : s.store.Retains s.made
  shows : ∀ p ∈ s.published, p.Shows s.made
  order : s.published.Pairwise (Snapshot.NotBack s.made)
  last : s.published.getLast? = some ⟨s.store.active, s.made.length⟩
  received : s.received < s.published.length
  /-- Whatever may arrive shows nothing that the client has once not been shown. -/
  client : ∃ items born, s.client.Knows s.made items born ∧
    ∀ k p, s.received ≤ k → s.published[k]? = some p →
      born ≤ p.made ∧ ∀ id ∈ p.ids, ageIn s.made id < born → id ∈ items

namespace Service.Joint

variable {s s' : Service}

theorem shows_active {store : Store} {made : List Item} (retains : store.Retains made) :
    Snapshot.Shows made ⟨store.active, made.length⟩ where
  count := le_rfl
  shown := by
    dsimp only
    rw [List.take_length, ← retains.newest]
    have hactive : store.active.map Item.announced = store.active := by
      conv_rhs => rw [← List.map_id store.active]
      refine List.map_congr_left fun item hitem => ?_
      exact announced_of_active (beq_iff_eq.mp (List.mem_filter.mp hitem).2)
    rw [← hactive]
    exact List.filter_sublist.map _

theorem start {store : Store} {file : Except String (Option (List Item))}
    (opened : openStore file = .ok store) : (service store).init.Joint where
  retains := Store.retains_open opened
  shows p hp := by
    rw [List.mem_singleton.mp hp]
    exact shows_active (Store.retains_open opened)
  order := List.pairwise_singleton _ _
  last := rfl
  received := Nat.zero_lt_one
  client := ⟨[], 0, ⟨.empty, Nat.zero_le _, rfl, by simp [service], by simp [service], Nat.zero_le _⟩,
    fun _ _ _ _ => ⟨Nat.zero_le _, fun _ _ h => absurd h (Nat.not_lt_zero _)⟩⟩

theorem getElem?_append_singleton {published : List Snapshot} {k : Nat} {p q : Snapshot}
    (h : (published ++ [p])[k]? = some q) : published[k]? = some q ∨ q = p := by
  by_cases hk : k < published.length
  · rw [List.getElem?_append_left hk] at h
    exact .inl h
  · rw [List.getElem?_append_right (Nat.not_lt.mp hk)] at h
    exact .inr (List.mem_singleton.mp (List.mem_of_getElem? h))

/-- A commit, after which nothing is active that was there before and was not active. -/
theorem commit {store : Store} {more : List Item} (h : s.Joint)
    (retains : store.Retains (s.made ++ more))
    (kept : ∀ item ∈ store.active, item ∈ s.made → item ∈ s.store.active) :
    (s.commit store (s.made ++ more)).Joint := by
  have shows : ∀ p ∈ s.published ++ [⟨store.active, (s.made ++ more).length⟩],
      p.Shows (s.made ++ more) := by
    intro p hp
    obtain hp | hp := List.mem_append.mp hp
    · exact (h.shows p hp).grow
    · rw [List.mem_singleton.mp hp]
      exact shows_active retains
  have notBack : ∀ p ∈ s.published,
      p.NotBack (s.made ++ more) ⟨store.active, (s.made ++ more).length⟩ := by
    intro p hp
    have hcount := (h.shows p hp).count
    refine ⟨hcount.trans (by simp), fun item hitem hmade => ?_⟩
    rw [List.take_append_of_le_length hcount] at hmade
    have hactive := kept item hitem (List.mem_of_mem_take hmade)
    obtain ⟨earlier, hpublished⟩ := List.getLast?_eq_some_iff.mp h.last
    rw [hpublished] at hp
    obtain hp | hp := List.mem_append.mp hp
    · -- The snapshot before has it, and so has every earlier one.
      have horder := h.order
      rw [hpublished, List.pairwise_append] at horder
      exact (horder.2.2 p hp _ List.mem_cons_self).kept item hactive hmade
    · rw [List.mem_singleton.mp hp]
      exact hactive
  obtain ⟨items, born, knows, next⟩ := h.client
  refine ⟨retains, shows, ?_, by simp [Service.commit], ?_, items, born, knows.grow more, ?_⟩
  · refine List.pairwise_append.mpr ⟨?_, List.pairwise_singleton _ _, fun p hp q hq => ?_⟩
    · exact h.order.imp_of_mem fun hp _ hpq => hpq.grow (h.shows _ hp)
    · rw [List.mem_singleton.mp hq]
      exact notBack p hp
  · have hreceived := h.received
    simp only [Service.commit, List.length_append]
    omega
  · have older : ∀ id, ageIn (s.made ++ more) id < born → ageIn s.made id < born := by
      intro id hage
      rwa [ageIn_of_append (hage.trans_le knows.count)] at hage
    intro k q hk hq
    obtain hq | rfl := getElem?_append_singleton hq
    · obtain ⟨grows, listed⟩ := next k q hk hq
      exact ⟨grows, fun id hid hage => listed id hid (older id hage)⟩
    · -- What the new snapshot shows of the past was in the one before.
      have hlast := h.last
      rw [List.getLast?_eq_getElem?] at hlast
      have hmem := List.mem_of_getElem? hlast
      have hreceived := h.received
      obtain ⟨grows, listed⟩ := next _ _ (by omega) hlast
      refine ⟨grows.trans (notBack _ hmem).grows, fun id hid hage => ?_⟩
      refine listed id ?_ (older id hage)
      have hbefore := (notBack _ hmem).kept_ids (h.shows _ hmem).grow (shows_active retains)
        retains.unique hid (hage.trans_le grows)
      exact ((h.shows _ hmem).mem_ids h.retains.unique).mpr
        (((h.shows _ hmem).grow.mem_ids retains.unique).mp hbefore)

theorem order_getElem? {published : List Snapshot} {made : List Item} {i j : Nat} {p q : Snapshot}
    (order : published.Pairwise (Snapshot.NotBack made)) (hp : published[i]? = some p)
    (hq : published[j]? = some q) (hlt : i < j) : p.NotBack made q := by
  obtain ⟨hi, rfl⟩ := List.getElem?_eq_some_iff.mp hp
  obtain ⟨hj, rfl⟩ := List.getElem?_eq_some_iff.mp hq
  exact List.pairwise_iff_getElem.mp order i j hi hj hlt

/-- The client takes in a snapshot. -/
theorem receive {k : Nat} {f : List ServiceNotification → Client} (h : s.Joint)
    (synced : ∀ items born (p : Snapshot), s.client.Knows s.made items born → p.Shows s.made →
      born ≤ p.made → (∀ id ∈ p.ids, ageIn s.made id < born → id ∈ items) →
      (f p.parsed).Knows s.made p.ids p.made)
    (hstep : s.receive k f = some s') : s'.Joint := by
  unfold Service.receive at hstep
  split at hstep
  · cases hstep
  · rename_i hlater
    obtain ⟨p, hp, rfl⟩ := Option.map_eq_some_iff.mp hstep
    obtain ⟨items, born, knows, next⟩ := h.client
    obtain ⟨grows, kept⟩ := next k p (Nat.not_lt.mp hlater) hp
    have showsP := h.shows p (List.mem_of_getElem? hp)
    obtain ⟨hk, -⟩ := List.getElem?_eq_some_iff.mp hp
    refine ⟨h.retains, h.shows, h.order, h.last, hk,
      p.ids, p.made, synced items born p knows showsP grows kept, ?_⟩
    intro k' q hle hq
    have showsQ := h.shows q (List.mem_of_getElem? hq)
    obtain rfl | hlt := Nat.eq_or_lt_of_le hle
    · cases hp.symm.trans hq
      exact ⟨le_rfl, fun id hid _ => hid⟩
    · have notBack := order_getElem? h.order hp hq hlt
      exact ⟨notBack.grows, fun id hid => notBack.kept_ids showsP showsQ h.retains.unique hid⟩

/-- A change of the client that forgets nothing. -/
theorem quiet {c : Client} (h : s.Joint)
    (knows : ∀ items born, s.client.Knows s.made items born → c.Knows s.made items born) :
    Service.Joint { s with client := c } := by
  obtain ⟨items, born, known, next⟩ := h.client
  exact ⟨h.retains, h.shows, h.order, h.last, h.received, items, born, knows items born known, next⟩

theorem step {a : ServiceAct} (h : s.Joint) (hstep : s.step a = some s') : s'.Joint := by
  cases a with
  | create io d =>
    simp only [Service.step] at hstep
    split at hstep
    · rename_i item store hcreate
      split at hstep
      · cases hstep
      · rename_i hnew
        have hfresh : item.id ∉ s.made.map Item.id := by simpa using hnew
        cases hstep
        refine h.commit (h.retains.create hcreate hfresh) fun other hother hmade => ?_
        obtain rfl | hactive := Store.mem_active_create hcreate hother
        · exact absurd (List.mem_map_of_mem hmade) hfresh
        · exact hactive
    · cases hstep
      exact h
  | revoke io id =>
    simp only [Service.step] at hstep
    split at hstep
    · rename_i store hrevoke
      cases hstep
      have committed := h.commit (by simpa using h.retains.revoke hrevoke : store.Retains (s.made ++ []))
        fun other hother _ => Store.mem_active_revoke hrevoke hother
      rwa [List.append_nil] at committed
    · cases hstep
      exact h
    · cases hstep
      exact h
  | sync k =>
    exact h.receive (fun _ _ _ knows => knows.sync h.retains.unique) hstep
  | restart k =>
    cases k with
    | none =>
      cases hstep
      exact h.quiet fun _ _ knows => knows.load
    | some k =>
      exact h.receive (fun _ _ _ knows => knows.load.sync h.retains.unique) hstep
  | markRead id =>
    cases hstep
    refine h.quiet fun _ _ knows => ?_
    unfold Client.markRead
    split
    · exact knows.save rfl
    · exact knows
  | markAllRead =>
    cases hstep
    exact h.quiet fun _ _ knows => knows.save rfl

end Service.Joint

/-- Every interleaving of the store, the deliveries and the client, which may skip snapshots and
    restart: no announcement is alerted about twice. -/
theorem alertedOnce_run {store : Store} {file : Except String (Option (List Item))}
    {as : List ServiceAct} {s : Service} (opened : openStore file = .ok store)
    (run : (service store).Run Machine.anyStep as s) :
    (s.client.alerts.map ServiceNotification.id).Nodup := by
  have joint : s.Joint :=
    run.invariant Service.Joint (Service.Joint.start opened) fun _ _ _ h _ hstep => h.step hstep
  obtain ⟨items, born, knows, -⟩ := joint.client
  exact knows.once

/-- Two announcements, one of which is revoked; the client restarts in between. -/
def twoAlerts : List ServiceAct :=
  let id (c : Char) : Text := List.replicate 32 c
  let draft : Draft := ⟨"t".toList, "b".toList, "info".toList⟩
  [.create ⟨.ok (id 'a'), 1, .ok ()⟩ draft, .sync 1, .create ⟨.ok (id 'b'), 2, .ok ()⟩ draft,
    .restart (some 2), .markAllRead, .revoke ⟨.error "", 3, .ok ()⟩ (id 'b'), .restart none, .sync 3]

theorem alertedOnce_twoAlerts : ∃ s : Service,
    s.client.alerts.map (fun n => n.id.head?) = [some 'a', some 'b'] ∧
    s.client.inbox.items.length = 1 ∧
    (s.client.alerts.map ServiceNotification.id).Nodup := by
  have hexec : ((service ⟨[]⟩).exec twoAlerts (service ⟨[]⟩).init).map
      (fun s => (s.client.alerts.map fun n => n.id.head?, s.client.inbox.items.length)) =
      some ([some 'a', some 'b'], 1) := by
    decide +kernel
  obtain ⟨s, hexec, heq⟩ := Option.map_eq_some_iff.mp hexec
  obtain ⟨halerts, hitems⟩ := Prod.mk.inj heq
  have opened : openStore (.ok none) = .ok ⟨[]⟩ := rfl
  exact ⟨s, halerts, hitems, alertedOnce_run opened (Machine.run_of_exec hexec)⟩

end CrossTransfer.Notification
