import CrossTransfer.Notification.Store
import CrossTransfer.Signal.Subscribers

/-! # Publication

The store commits under its own lock and hands the snapshot to `SetNotifications` while it still
holds it; the hub keeps the snapshot and queues it under the lock of the hub, and so does `onHello`.
Between the commit and the publication, and anywhere else, other critical sections of the hub may
run.

`snapshots_run`: whoever asked for notifications is queued the snapshot that was current at the
hello, and from there on every later one, in the order of the commits.
-/

namespace CrossTransfer.Notification

open CrossTransfer.Library
open CrossTransfer.Signal
open CrossTransfer.Transfer

/-! ## The server -/

structure Server where
  hub : Hub
  store : Store
  /-- Committed by the holder of the store's lock, who is about to publish it. -/
  publishing : Option Bytes := none
  /-- The snapshots that the hub was handed, oldest first. -/
  published : List Bytes

inductive ServerAct where
  | hub (io : HubIo) (a : Hub.Action)
  | create (io : StoreIo) (d : Draft)
  | revoke (io : StoreIo) (id : Text)
  /-- `SetNotifications`, called in `PublishSnapshot`. -/
  | publish (io : HubIo)

namespace Server

/-- All committed snapshots, oldest first. -/
def committed (s : Server) : List Bytes := s.published ++ s.publishing.toList

/-- The store has committed, and keeps its lock. -/
def commit (marshal : List Item → Bytes) (s : Server) (store : Store) : Server :=
  { s with store := store, publishing := some (marshal store.active) }

/-- A critical section of the hub or of the store; the store's lock is free if nothing is being
    published. -/
def step (marshal : List Item → Bytes) (opt : Options) (s : Server) : ServerAct → Option Server
  | .hub _ (.setNotifications _) => none
  | .hub io a => (Hub.step opt s.hub (io, a)).map fun hub => { s with hub := hub }
  | .create io d =>
    if s.publishing.isSome then none
    else
      match s.store.create io d with
      | .error _ => some s
      | .ok (_, store) => some (s.commit marshal store)
  | .revoke io id =>
    if s.publishing.isSome then none
    else
      match s.store.revoke io id with
      | .error _ => some s
      | .ok none => some s
      | .ok (some store) => some (s.commit marshal store)
  | .publish io =>
    s.publishing.bind fun snapshot =>
      (Hub.step opt s.hub (io, .setNotifications snapshot)).map fun hub =>
        { s with hub := hub, publishing := none, published := s.published ++ [snapshot] }

end Server

/-- A new hub, and a store that `Open` has read and published. -/
def server (marshal : List Item → Bytes) (opt : Options) (store : Store) :
    Machine Server ServerAct where
  init :=
    { hub := { notifications := marshal store.active }
      store := store
      published := [marshal store.active] }
  step := Server.step marshal opt.withDefaults

/-- `PublishSnapshot` in `Open`: nobody is connected yet. -/
theorem setNotifications_new (opt : Options) (io : HubIo) (snapshot : Bytes) :
    (Hub.machine opt).init.setNotifications io snapshot = { notifications := snapshot } := by
  have hnobody : io.order.keysOf ((Hub.machine opt).init.livePeers) = [] := by
    rw [List.eq_nil_iff_forall_not_mem]
    intro p hp
    rw [MapOrder.mem_keysOf] at hp
    exact absurd hp Std.ExtTreeSet.not_mem_empty
  rw [Hub.setNotifications]
  dsimp only
  rw [hnobody]
  rfl

/-! ## What a subscriber is queued -/

/-- In the state `q`, `p` said in its first hello that it wants notifications. It is queued the
    snapshot that was current then and the later ones, none left out, and as long as it is connected
    all of them. -/
structure SubscribedAt (M : Machine Server ServerAct) (as : List ServerAct) (s : Server) (p : Bytes)
    (q : Server) : Prop where
  took : ∃ io id m q', M.Took as q (.hub io (.text p (some ⟨id, .hello (.ok m)⟩))) q' ∧
    m.notifications = true
  first : q.hub.greeted p = false
  current : q.published.getLast? = some q.hub.notifications
  segment : s.hub.snapshotsTo p <+: s.published.drop (q.published.length - 1)
  connected : p ∈ s.hub.livePeers →
    s.hub.snapshotsTo p = s.published.drop (q.published.length - 1)
  /-- None of them comes before the welcome. -/
  welcomed : ∃ before id servers heartbeat time after,
    s.hub.log = before ++ .text p (.welcome id p servers heartbeat time) :: after ∧
    before.flatMap (Output.snapshotsTo p) = []
  known : q.published.length ≤ s.published.length

/-- Who was queued what, after the actions `as`. -/
structure Audience (marshal : List Item → Bytes) (M : Machine Server ServerAct)
    (as : List ServerAct) (s : Server) : Prop where
  reserved : s.hub.Reserved
  current : s.published.getLast? = some s.hub.notifications
  stored : s.committed.getLast? = some (marshal s.store.active)
  silent : ∀ p, s.hub.optedIn p = false → s.hub.snapshotsTo p = []
  subscribed : ∀ p, s.hub.optedIn p = true → ∃ q, SubscribedAt M as s p q

section

variable {marshal : List Item → Bytes} {opt : Options} {store : Store} {M : Machine Server ServerAct}
  {as : List ServerAct} {s s' : Server} {p : Bytes} {q : Server} {a : ServerAct}

/-- A step that queues nothing to `p`, and after which it is connected only if it was. -/
theorem SubscribedAt.quiet (h : SubscribedAt M as s p q) (published : s'.published = s.published)
    (log : ∃ out, s'.hub.log = s.hub.log ++ out)
    (snapshots : s'.hub.snapshotsTo p = s.hub.snapshotsTo p)
    (live : p ∈ s'.hub.livePeers → p ∈ s.hub.livePeers) :
    SubscribedAt M (as ++ [a]) s' p q where
  took := by
    obtain ⟨io, id, m, q', htook, hm⟩ := h.took
    exact ⟨io, id, m, q', htook.mono (List.prefix_append ..), hm⟩
  first := h.first
  current := h.current
  segment := by
    rw [snapshots, published]
    exact h.segment
  connected hlive := by
    rw [snapshots, published]
    exact h.connected (live hlive)
  welcomed := by
    obtain ⟨before, id, servers, heartbeat, time, after, hlog, hnone⟩ := h.welcomed
    obtain ⟨out, hout⟩ := log
    exact ⟨before, id, servers, heartbeat, time, after ++ out, by simp [hout, hlog], hnone⟩
  known := published ▸ h.known

/-- A step of the store: it may have committed. -/
theorem Audience.store_step {store : Store} {publishing : Option Bytes} (inv : Audience marshal M as s)
    (stored : (s.published ++ publishing.toList).getLast? = some (marshal store.active)) :
    Audience marshal M (as ++ [a]) { s with store := store, publishing := publishing } where
  reserved := inv.reserved
  current := inv.current
  stored := stored
  silent := inv.silent
  subscribed p hp := by
    obtain ⟨q, hq⟩ := inv.subscribed p hp
    exact ⟨q, hq.quiet rfl ⟨[], by simp⟩ rfl id⟩

theorem Audience.unheard {hub : Hub} (inv : Audience marshal M as s) (same : Hub.Unheard s.hub hub) :
    Audience marshal M (as ++ [a]) { s with hub := hub } where
  reserved := same.reserved inv.reserved
  current := inv.current.trans (by rw [same.current])
  stored := inv.stored
  silent p hp := by
    rw [same.snapshotsTo]
    exact inv.silent p (same.optedIn p ▸ hp)
  subscribed p hp := by
    have hbefore : s.hub.optedIn p = true := same.optedIn p ▸ hp
    obtain ⟨q, hq⟩ := inv.subscribed p hbefore
    obtain ⟨out, hout, -⟩ := same.log
    refine ⟨q, hq.quiet rfl ⟨out, hout⟩ (same.snapshotsTo p) fun hlive => ?_⟩
    exact same.live p hlive (Hub.greeted_of_optedIn hp)

/-- The hello of `p`: the welcome, and the current snapshot if `p` asks for it. -/
theorem Audience.welcomed {hub : Hub} {io : HubIo} {id : Int} {m : HelloMsg}
    (inv : Audience marshal M as s)
    (welcomed : Hub.Welcomed opt io s.hub p id m hub)
    (took : M.Took (as ++ [.hub io (.text p (some ⟨id, .hello (.ok m)⟩))]) s
      (.hub io (.text p (some ⟨id, .hello (.ok m)⟩))) { s with hub := hub }) :
    Audience marshal M (as ++ [.hub io (.text p (some ⟨id, .hello (.ok m)⟩))])
      { s with hub := hub } := by
  have hsnapshots : ∀ r, hub.snapshotsTo r = s.hub.snapshotsTo r ++
      if r = p ∧ m.notifications = true then [s.hub.notifications] else [] := by
    intro r
    rw [Hub.snapshotsTo_append welcomed.log]
    by_cases hm : m.notifications = true
    · by_cases hr : p = r
      · simp [hm, hr, Output.snapshotsTo]
      · simp [hm, hr, Ne.symm hr, Output.snapshotsTo]
    · simp [hm, Output.snapshotsTo]
  have hstranger : s.hub.optedIn p = false := by
    by_contra hopted
    rw [Bool.not_eq_false] at hopted
    have hgreeted := Hub.greeted_of_optedIn hopted
    rw [welcomed.stranger] at hgreeted
    cases hgreeted
  refine ⟨fun r => by rw [welcomed.threads]; exact inv.reserved r,
    inv.current.trans (by rw [welcomed.current]), inv.stored, fun r hr => ?_, fun r hr => ?_⟩
  · rw [welcomed.optedIn] at hr
    rw [hsnapshots]
    split at hr
    · rename_i heq
      subst heq
      simp [hr, inv.silent _ hstranger]
    · rename_i hne
      simp [hne, inv.silent r hr]
  · rw [welcomed.optedIn] at hr
    split at hr
    · rename_i heq
      subst heq
      -- What is current is all there is to send.
      obtain ⟨earlier, hpublished⟩ : ∃ earlier, s.published = earlier ++ [s.hub.notifications] := by
        have hlast := inv.current
        rw [List.getLast?_eq_some_iff] at hlast
        exact hlast
      have hqueued : hub.snapshotsTo r = s.published.drop (s.published.length - 1) := by
        rw [hsnapshots, inv.silent r hstranger, hpublished]
        simp [hr]
      refine ⟨s, ⟨io, id, m, _, took, hr⟩, welcomed.stranger, inv.current, ?_, fun _ => hqueued, ?_,
        le_rfl⟩
      · rw [hqueued]
      · refine ⟨s.hub.log, id, _, _, _, _, welcomed.log, inv.silent r hstranger⟩
    · rename_i hne
      obtain ⟨q, hq⟩ := inv.subscribed r hr
      refine ⟨q, hq.quiet rfl ⟨_, welcomed.log⟩ ?_ fun hlive => ?_⟩
      · rw [hsnapshots]
        simp [hne]
      · rwa [welcomed.live] at hlive

/-- The pending snapshot is published. -/
theorem Audience.published {hub : Hub} {snapshot : Bytes} (inv : Audience marshal M as s)
    (pending : s.publishing = some snapshot) (published : Hub.Published snapshot s.hub hub) :
    Audience marshal M (as ++ [a])
      { s with hub := hub, publishing := none, published := s.published ++ [snapshot] } where
  reserved p := by
    rw [published.threads]
    exact inv.reserved p
  current := by simp [published.current]
  stored := by
    have stored := inv.stored
    rw [Server.committed, pending] at stored
    simpa [Server.committed] using stored
  silent p hp := by
    rw [published.snapshots]
    rw [published.optedIn] at hp
    simp [hp, inv.silent p hp]
  subscribed p hp := by
    rw [published.optedIn] at hp
    obtain ⟨q, hq⟩ := inv.subscribed p hp
    obtain ⟨io, id, m, q', htook, hm⟩ := hq.took
    obtain ⟨before, wid, servers, heartbeat, time, after, hlog, hnone⟩ := hq.welcomed
    obtain ⟨out, hout⟩ := published.log
    have hdrop : (s.published ++ [snapshot]).drop (q.published.length - 1) =
        s.published.drop (q.published.length - 1) ++ [snapshot] :=
      List.drop_append_of_le_length ((Nat.sub_le _ _).trans hq.known)
    refine ⟨q, ⟨io, id, m, q', htook.mono (List.prefix_append ..), hm⟩, hq.first, hq.current, ?_,
      fun hlive => ?_, ⟨before, wid, servers, heartbeat, time, after ++ out, ?_, hnone⟩, ?_⟩
    · rw [published.snapshots, hdrop]
      by_cases hlive : p ∈ s.hub.livePeers
      · rw [if_pos ⟨hlive, hp⟩, hq.connected hlive]
      · rw [if_neg fun h => hlive h.1, List.append_nil]
        exact hq.segment.trans (List.prefix_append ..)
    · rw [published.live] at hlive
      rw [published.snapshots, hdrop, if_pos ⟨hlive, hp⟩, hq.connected hlive]
    · simp [hout, hlog]
    · have hknown := hq.known
      rw [List.length_append]
      omega

theorem audience_step (run : (server marshal opt store).Run Machine.anyStep as s)
    (inv : Audience marshal (server marshal opt store) as s)
    (hstep : (server marshal opt store).step s a = some s') :
    Audience marshal (server marshal opt store) (as ++ [a]) s' := by
  cases a with
  | hub io act =>
    cases act with
    | setNotifications snapshot => cases hstep
    | _ =>
      obtain ⟨hub, hhub, rfl⟩ := Option.map_eq_some_iff.mp hstep
      obtain same | ⟨live, welcomed⟩ := Hub.heard_step inv.reserved hhub
      · exact inv.unheard same
      all_goals exact inv.welcomed welcomed (run.took hstep)
  | create io d =>
    simp only [server, Server.step] at hstep
    split at hstep
    · cases hstep
    · split at hstep
      · cases hstep
        exact inv.store_step inv.stored
      · cases hstep
        exact inv.store_step (by simp)
  | revoke io id =>
    simp only [server, Server.step] at hstep
    split at hstep
    · cases hstep
    · split at hstep
      · cases hstep
        exact inv.store_step inv.stored
      · cases hstep
        exact inv.store_step inv.stored
      · cases hstep
        exact inv.store_step (by simp)
  | publish io =>
    obtain ⟨snapshot, pending, hstep⟩ := Option.bind_eq_some_iff.mp hstep
    obtain ⟨hub, hhub, rfl⟩ := Option.map_eq_some_iff.mp hstep
    obtain ⟨-, -, heffect⟩ := Hub.of_step hhub
    have heq : hub = s.hub.setNotifications io snapshot := heffect
    rw [heq]
    exact inv.published pending (Hub.published_setNotifications s.hub snapshot)

/-- Every interleaving of hellos and the rest of the hub with the commits of the store: who did not
    ask for notifications is queued none, and who did is queued the snapshot that was current at the
    hello and every later one, in the order of the commits. -/
theorem snapshots_run (run : (server marshal opt store).Run Machine.anyStep as s) :
    Audience marshal (server marshal opt store) as s := by
  refine run.history (Audience marshal (server marshal opt store)) ?_ fun as s a s' run inv _ => audience_step run inv
  refine ⟨fun p t ht => absurd ht List.not_mem_nil, rfl, rfl, fun p _ => rfl, fun p hp => ?_⟩
  simp [Hub.optedIn, server] at hp

end

/-! ## A hello between the commit and the publication -/

/-- A snapshot in short: how many announcements it holds. -/
def countItems (items : List Item) : Bytes := [UInt8.ofNat items.length]

def helloBetween : List ServerAct :=
  let subscribe : Body := .hello (.ok { proto := 1, notifications := true })
  [.hub (Hub.ioAt 1 0) (.connect []), .hub (Hub.ioAt 2 0) (.connect []),
    .hub (Hub.ioAt 3 0) (.text [80, 1] (some ⟨1, subscribe⟩)),
    .create ⟨.ok "a".toList, 1, .ok ()⟩ ⟨"t".toList, "b".toList, "info".toList⟩,
    .hub (Hub.ioAt 3 0) (.text [80, 2] (some ⟨1, subscribe⟩)), .publish (Hub.ioAt 3 0)]

theorem snapshots_helloBetween : ∃ s, s.hub.snapshotsTo [80, 1] = [[0], [1]] ∧
    s.hub.snapshotsTo [80, 2] = [[0], [1]] ∧
    Audience countItems (server countItems {} ⟨[]⟩) helloBetween s := by
  have hexec : ((server countItems {} ⟨[]⟩).exec helloBetween (server countItems {} ⟨[]⟩).init).map
      (fun s => (s.hub.snapshotsTo [80, 1], s.hub.snapshotsTo [80, 2])) =
      some ([[0], [1]], [[0], [1]]) := by
    decide +kernel
  obtain ⟨s, hexec, heq⟩ := Option.map_eq_some_iff.mp hexec
  exact ⟨s, (Prod.mk.inj heq).1, (Prod.mk.inj heq).2, snapshots_run (Machine.run_of_exec hexec)⟩

end CrossTransfer.Notification
