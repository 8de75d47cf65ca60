import CrossTransfer.Signal.Traces

/-! # Who is sent the notifications

Two critical sections send a snapshot: `onHello`, to the peer that asks for it, and
`SetNotifications`, to everyone connected who did (`Heard`). No other step sends one, leaves one
to a goroutine or changes who has asked; a peer can still leave (`Unheard`).
-/

namespace CrossTransfer.Signal

open CrossTransfer.Library
open CrossTransfer.Transfer

/-- The snapshots among what is handed to `p`. -/
def Output.snapshotsTo (p : Bytes) : Output → List Bytes
  | .text q (.notifications snapshot) => if q = p then [snapshot] else []
  | _ => []

/-- A task that would send a snapshot. -/
def Task.announces : Task → Bool
  | .send _ (.notifications _) => true
  | _ => false

/-- What a peer has said in its hello. -/
def Peer.flags (peer : Peer) : Bool × Bool := (peer.hello, peer.notifications)

@[simp] theorem Peer.flags_addShare (peer : Peer) (id : Bytes) : (peer.addShare id).flags = peer.flags :=
  rfl

@[simp] theorem Peer.flags_dropShare (peer : Peer) (id : Bytes) :
    (peer.dropShare id).flags = peer.flags := rfl

@[simp] theorem Peer.flags_addSession (peer : Peer) (id : Bytes) :
    (peer.addSession id).flags = peer.flags := rfl

@[simp] theorem Peer.flags_dropSession (peer : Peer) (id : Bytes) :
    (peer.dropSession id).flags = peer.flags := rfl

/-- A peer is changed, but not in what it has said. -/
theorem flags_modify {f : Peer → Peer} (hf : ∀ peer, (f peer).flags = peer.flags)
    (peers : OrderedMap Bytes Peer) (k p : Bytes) :
    ((peers.modify k f)[p]?).map Peer.flags = (peers[p]?).map Peer.flags := by
  rw [OrderedMap.get_modify]
  split
  · rw [Option.map_map]
    exact congrArg (Option.map · _) (funext hf)
  · rfl

namespace Hub

/-- The snapshots that `p` has been sent, oldest first. -/
def snapshotsTo (h : Hub) (p : Bytes) : List Bytes := h.log.flatMap (Output.snapshotsTo p)

/-- The peer has asked for notifications. -/
def optedIn (h : Hub) (p : Bytes) : Bool :=
  (h.peers[p]?).elim false fun peer => peer.hello && peer.notifications

/-- No goroutine is about to send a snapshot. -/
def Reserved (h : Hub) : Prop := ∀ p, ∀ t ∈ h.threads p, t.announces = false

/-- A step that sends no snapshot, and after which the same peers have asked for them. -/
structure Unheard (h h' : Hub) : Prop where
  threads : ∀ p, h'.threads p = h.threads p ∨ ∀ t ∈ h'.threads p, t.announces = false
  log : ∃ out, h'.log = h.log ++ out ∧ ∀ o ∈ out, ∀ p, o.snapshotsTo p = []
  current : h'.notifications = h.notifications
  greeted : ∀ p, h'.greeted p = h.greeted p
  optedIn : ∀ p, h'.optedIn p = h.optedIn p
  live : ∀ p, p ∈ h'.livePeers → h'.greeted p = true → p ∈ h.livePeers

variable {opt : Options} {io : HubIo} {h h' h'' : Hub}

theorem greeted_eq (h : Hub) (p : Bytes) :
    h.greeted p = ((h.peers[p]?).map Peer.flags).elim false (·.1) := by
  rw [Hub.greeted]
  cases h.peers[p]? with
  | none => rfl
  | some peer => rfl

theorem optedIn_eq (h : Hub) (p : Bytes) :
    h.optedIn p = ((h.peers[p]?).map Peer.flags).elim false fun flags => flags.1 && flags.2 := by
  rw [Hub.optedIn]
  cases h.peers[p]? with
  | none => rfl
  | some peer => rfl

/-- Only a peer that has said hello can have asked. -/
theorem greeted_of_optedIn {p : Bytes} (hp : h.optedIn p = true) : h.greeted p = true := by
  rw [Hub.optedIn] at hp
  rw [Hub.greeted]
  cases hpeer : h.peers[p]? with
  | none => simp [hpeer] at hp
  | some peer =>
    simp only [hpeer, Option.elim_some, Bool.and_eq_true] at hp
    exact hp.1

theorem snapshotsTo_append {out : List Output} (hlog : h'.log = h.log ++ out) (p : Bytes) :
    h'.snapshotsTo p = h.snapshotsTo p ++ out.flatMap (Output.snapshotsTo p) := by
  rw [snapshotsTo, hlog, List.flatMap_append, snapshotsTo]

namespace Unheard

/-- A step that sends nothing and at most removes peers. -/
theorem of_frame (threads : h'.threads = h.threads) (log : h'.log = h.log)
    (current : h'.notifications = h.notifications)
    (flags : ∀ p : Bytes, (h'.peers[p]?).map Peer.flags = (h.peers[p]?).map Peer.flags)
    (live : ∀ p, p ∈ h'.livePeers → p ∈ h.livePeers) : Unheard h h' where
  threads p := .inl (congrFun threads p)
  log := ⟨[], by simpa using log, by simp⟩
  current := current
  greeted p := by rw [greeted_eq, greeted_eq, flags]
  optedIn p := by rw [optedIn_eq, optedIn_eq, flags]
  live p hp _ := live p hp

theorem refl (h : Hub) : Unheard h h := of_frame rfl rfl rfl (fun _ => rfl) fun _ hp => hp

theorem trans (hh' : Unheard h h') (hh'' : Unheard h' h'') : Unheard h h'' where
  threads p := by
    obtain hsame' | hnone' := hh''.threads p
    · rw [hsame']
      exact hh'.threads p
    · exact .inr hnone'
  log := by
    obtain ⟨out, hout, hnone⟩ := hh'.log
    obtain ⟨out', hout', hnone'⟩ := hh''.log
    refine ⟨out ++ out', by rw [hout', hout, List.append_assoc], fun o ho => ?_⟩
    obtain ho | ho := List.mem_append.mp ho
    · exact hnone o ho
    · exact hnone' o ho
  current := hh''.current.trans hh'.current
  greeted p := (hh''.greeted p).trans (hh'.greeted p)
  optedIn p := (hh''.optedIn p).trans (hh'.optedIn p)
  live p hp hgreeted := by
    apply hh'.live p
    · exact hh''.live p hp hgreeted
    · rw [← hh''.greeted p]
      exact hgreeted

/-- Something else is handed to the sinks. -/
theorem output {o : Output} (hh' : Unheard h h') (ho : ∀ p, o.snapshotsTo p = []) :
    Unheard h { h' with log := h'.log ++ [o] } := by
  apply hh'.trans
  refine ⟨fun p => .inl rfl, ⟨[o], rfl, ?_⟩, rfl, fun _ => rfl, fun _ => rfl, fun _ hp _ => hp⟩
  intro o' ho'
  obtain rfl := List.mem_singleton.mp ho'
  exact ho

/-- A handler leaves tasks that send no snapshot. -/
theorem next {p : Bytes} {tasks : List Task} (hh' : Unheard h h')
    (htasks : ∀ t ∈ tasks, t.announces = false) : Unheard h (h'.next p tasks) where
  threads q := by
    by_cases hq : q = p
    · subst hq
      simp only [Hub.next, Function.update_self]
      exact .inr htasks
    · simp only [Hub.next, Function.update_of_ne hq]
      exact hh'.threads q
  log := hh'.log
  current := hh'.current
  greeted := hh'.greeted
  optedIn := hh'.optedIn
  live := hh'.live

theorem foldl {β : Type*} {f : Hub → β → Hub} (hf : ∀ h b, Unheard h (f h b)) (bs : List β)
    (h : Hub) : Unheard h (bs.foldl f h) := by
  induction bs generalizing h with
  | nil => exact refl h
  | cons b bs ih => exact (hf h b).trans (ih (f h b))

theorem snapshotsTo (hh' : Unheard h h') (p : Bytes) : h'.snapshotsTo p = h.snapshotsTo p := by
  obtain ⟨out, hout, hnone⟩ := hh'.log
  rw [snapshotsTo_append hout, List.flatMap_eq_nil_iff.mpr fun o ho => hnone o ho p, List.append_nil]

theorem reserved (hh' : Unheard h h') (hr : h.Reserved) : h'.Reserved := by
  intro p
  obtain hsame | hnone := hh'.threads p
  · rw [hsame]
    exact hr p
  · exact hnone

end Unheard

/-! ## Teardown -/

theorem unheard_endFor (h : Hub) (sid : Bytes) (reason : Reason) (initiator : Option Bytes)
    (p : Bytes) : Unheard h (h.endFor sid reason initiator p) := by
  have hdropped : Unheard h { h with peers := h.peers.modify p (·.dropSession sid) } :=
    .of_frame rfl rfl rfl (flags_modify (fun peer => peer.flags_dropSession sid) _ _) fun _ hp => hp
  unfold endFor
  simp only
  split
  · exact hdropped
  · exact hdropped.output fun _ => rfl

theorem unheard_endSessionLocked (h : Hub) (sid : Bytes) (reason : Reason)
    (initiator : Option Bytes) : Unheard h (h.endSessionLocked sid reason initiator) := by
  unfold endSessionLocked
  split
  · exact .refl h
  · rename_i sess _
    have hremoved : Unheard h { h with
        liveSessions := h.liveSessions.erase sid
        tokens := h.tokens.erase sess.resumeToken
        shares := h.shares.modify sess.share (·.dropSession sid) } :=
      .of_frame rfl rfl rfl (fun _ => rfl) fun _ hp => hp
    exact hremoved.trans (.foldl (fun h p => unheard_endFor h sid reason initiator p) _ _)

theorem unheard_closeShareLocked (h : Hub) (id : Bytes) (reason : Reason)
    (initiator : Option Bytes) : Unheard h (h.closeShareLocked io id reason initiator) := by
  unfold closeShareLocked
  split
  · exact .refl h
  · rename_i s _
    have hremoved : Unheard h { h with
        liveShares := h.liveShares.erase id
        codes := h.codes.remove id
        peers := h.peers.modify s.owner (·.dropShare id) } :=
      .of_frame rfl rfl rfl (flags_modify (fun peer => peer.flags_dropShare id) _ _) fun _ hp => hp
    have hended := hremoved.trans (.foldl (fun h sid => unheard_endSessionLocked h sid reason initiator)
      (io.order.keysOf s.sessions) _)
    simp only
    split
    · exact hended.output fun _ => rfl
    · exact hended

theorem unheard_expireShare (h : Hub) (id : Bytes) : Unheard h (h.expireShare io id) := by
  unfold expireShare
  split
  · exact .refl h
  · split
    · exact .refl h
    · exact unheard_closeShareLocked ..

theorem unheard_detachReceiver (h : Hub) (p sid : Bytes) : Unheard h (h.detachReceiver p sid) := by
  unfold detachReceiver
  split
  · exact .refl h
  · rename_i sess _
    split
    · have hdetached : Unheard h { h with
          sessions := h.sessions.insert sid { sess with receiver := none }
          peers := h.peers.modify p (·.dropSession sid) } :=
        .of_frame rfl rfl rfl (flags_modify (fun peer => peer.flags_dropSession sid) _ _) fun _ hp => hp
      exact hdetached.output fun _ => rfl
    · exact .refl h

theorem unheard_disconnect (h : Hub) (p : Bytes) : Unheard h (h.disconnect io p) := by
  unfold disconnect
  split
  · exact .refl h
  · have hleft : Unheard h { h with livePeers := h.livePeers.erase p } :=
      .of_frame rfl rfl rfl (fun _ => rfl) fun q hq => ((OrderedSet.mem_erase_iff ..).mp hq).2
    apply (hleft.trans (.foldl (fun h id => unheard_closeShareLocked h id _ _) _ _)).trans
    exact .foldl (fun h sid => unheard_detachReceiver h p sid) _ _

theorem unheard_sweep (h : Hub) : Unheard h (h.sweep io) := by
  have hexpired := Unheard.foldl (fun h id => @unheard_expireShare io h id)
    (io.order.keysOf h.liveShares) h
  exact hexpired.trans (.of_frame rfl rfl rfl (fun _ => rfl) fun _ hp => hp)

theorem unheard_shutdown (h : Hub) : Unheard h (h.shutdown io) := by
  have hclosed : Unheard h { h with closed := true } :=
    .of_frame rfl rfl rfl (fun _ => rfl) fun _ hp => hp
  apply (hclosed.trans (.foldl (fun h id => @unheard_closeShareLocked io h id .serverClose none)
    (io.order.keysOf h.liveShares) _)).trans
  refine ⟨fun p => .inl rfl, ⟨_, rfl, fun o ho => ?_⟩, rfl, fun _ => rfl, fun _ => rfl,
    fun _ hp _ => hp⟩
  obtain ⟨q, -, rfl⟩ := List.mem_map.mp ho
  exact fun p => rfl

/-! ## Requests -/

/-- A handler that only leaves tasks. -/
theorem unheard_next {p : Bytes} {tasks : List Task} (htasks : ∀ t ∈ tasks, t.announces = false) :
    Unheard h (h.next p tasks) :=
  (Unheard.refl h).next htasks

@[simp] theorem announces_errorTask (p : Bytes) (id : Int) (code : ErrorCode) (text : Bytes) :
    (errorTask p id code text).announces = false := rfl

/-- A request that is answered with an error. -/
theorem unheard_refused (p : Bytes) (id : Int) (code : ErrorCode) (text : Bytes) :
    Unheard h (h.next p [errorTask p id code text]) :=
  unheard_next (by simp)

theorem Refusal.unheard {p : Bytes} {id : Int} {tasks : List Task} (hr : Refusal p id tasks) :
    ∀ t ∈ tasks, t.announces = false := by
  obtain ⟨code, text, rfl | rfl⟩ := hr
  · simp
  · intro t ht
    obtain rfl | rfl : t = _ ∨ t = _ := by simpa using ht
    · rfl
    · rfl

theorem unheard_onCreateShare (p : Bytes) (id : Int) (m : Except Bytes CreateShareMsg) :
    Unheard h (h.onCreateShare opt io p id m) := by
  unfold onCreateShare
  split
  · exact unheard_refused ..
  · simp only
    split
    · exact unheard_refused ..
    · split
      · exact unheard_refused ..
      · split
        · exact .refl h
        · split
          · exact unheard_refused ..
          · split
            · exact unheard_refused ..
            · apply Unheard.next
              · exact .of_frame rfl rfl rfl (flags_modify (fun peer => peer.flags_addShare io.shareId) _ _) fun _ hp => hp
              · simp [Task.announces]

theorem unheard_onCloseShare (p : Bytes) (id : Int) (m : Except Bytes Bytes) :
    Unheard h (h.onCloseShare io p id m) := by
  unfold onCloseShare
  split
  · exact unheard_refused ..
  · split
    · exact unheard_refused ..
    · split
      · exact unheard_refused ..
      · exact (unheard_closeShareLocked h _ _ _).next (by simp [Task.announces])

theorem unheard_onSignal (p : Bytes) (id : Int) (m : Except Bytes SignalMsg) :
    Unheard h (h.onSignal p id m) := by
  unfold onSignal
  split
  · exact unheard_refused ..
  · split
    · exact unheard_refused ..
    · split
      · exact unheard_refused ..
      · split
        · exact unheard_refused ..
        · split
          · exact unheard_refused ..
          · apply unheard_next
            split
            · simp [Task.announces]
            · simp [Task.announces]

theorem unheard_onLeave (p : Bytes) (id : Int) (m : Except Bytes Bytes) :
    Unheard h (h.onLeave p id m) := by
  unfold onLeave
  split
  · exact unheard_refused ..
  · split
    · exact unheard_refused ..
    · exact (unheard_endSessionLocked h _ _ _).next (by simp [Task.announces])

theorem unheard_handleBinary (p : Bytes) (frame : Bytes) : Unheard h (h.handleBinary io p frame) := by
  unfold handleBinary
  split
  · exact .refl h
  · split
    · exact unheard_refused ..
    · split
      · exact .refl h
      · split
        · exact unheard_refused ..
        · split
          · exact .refl h
          · split
            · exact unheard_next (by simp [Task.announces])
            · exact .refl h

theorem unheard_limited (h : Hub) (p : Bytes) : Unheard h (limited opt io h p) := by
  obtain ⟨perIp, hperIp⟩ : ∃ perIp, limited opt io h p = { h with perIp := perIp } := limited_eq p
  rw [hperIp]
  exact .of_frame rfl rfl rfl (fun _ => rfl) fun _ hp => hp

theorem unheard_join (p sid : Bytes) (id : Int) (resumed : Bool) :
    Unheard h (h.join p sid id resumed) :=
  ((Unheard.refl h).output fun _ => rfl).next (by simp [Task.announces])

theorem unheard_resumeSession (h : Hub) (p sid : Bytes) (id : Int) (sess : Session) :
    Unheard h (h.resumeSession p sid id sess) := by
  have hattached : Unheard h { h with
      sessions := h.sessions.insert sid { sess with receiver := some p }
      peers := h.peers.modify p (·.addSession sid) } :=
    .of_frame rfl rfl rfl (flags_modify (fun peer => peer.flags_addSession sid) _ _) fun _ hp => hp
  exact hattached.trans (unheard_join p sid id true)

theorem unheard_startSession (h : Hub) (p : Bytes) (id : Int) (shareId : Bytes) (s : Share) :
    Unheard h (h.startSession io p id shareId s) := by
  have hflags : ∀ q : Bytes, (((h.peers.modify s.owner (·.addSession io.sessionId)).modify p
      (·.addSession io.sessionId))[q]?).map Peer.flags = (h.peers[q]?).map Peer.flags := by
    intro q
    have hreceiver := flags_modify (fun peer => peer.flags_addSession io.sessionId)
      (h.peers.modify s.owner (·.addSession io.sessionId)) p q
    exact hreceiver.trans (flags_modify (fun peer => peer.flags_addSession io.sessionId) _ _ q)
  unfold startSession
  apply Unheard.trans _ (unheard_join p io.sessionId id false)
  exact Unheard.of_frame rfl rfl rfl hflags fun _ hp => hp

theorem unheard_onClaim (p : Bytes) (id : Int) (m : Except Bytes ClaimMsg) :
    Unheard h (h.onClaim opt io p id m) := by
  cases m with
  | error err => exact unheard_refused ..
  | ok m =>
    apply onClaim_rule
    intro h' outcome
    cases outcome with
    | ignored closed => exact .refl h
    | refused opened refusal => exact (unheard_limited h p).next refusal.unheard
    | resumed resumes => exact (unheard_limited h p).trans (unheard_resumeSession ..)
    | started starts => exact (unheard_limited h p).trans (unheard_startSession ..)

/-! ## The two steps that send snapshots -/

/-- A first hello is answered, and the snapshot that the hub has follows at once. -/
structure Welcomed (opt : Options) (io : HubIo) (h : Hub) (p : Bytes) (id : Int) (m : HelloMsg)
    (h' : Hub) : Prop where
  stranger : h.greeted p = false
  threads : h'.threads = h.threads
  log : h'.log = h.log ++
    .text p (.welcome id p (iceServers opt io p) opt.heartbeatSec (io.now / second)) ::
      if m.notifications then [.text p (.notifications h.notifications)] else []
  current : h'.notifications = h.notifications
  greeted : ∀ q, h'.greeted q = if q = p then true else h.greeted q
  optedIn : ∀ q, h'.optedIn q = if q = p then m.notifications else h.optedIn q
  live : h'.livePeers = h.livePeers

/-- Every connected peer that has asked for it is sent the new snapshot, once. -/
structure Published (snapshot : Bytes) (h h' : Hub) : Prop where
  threads : h'.threads = h.threads
  current : h'.notifications = snapshot
  greeted : ∀ p, h'.greeted p = h.greeted p
  optedIn : ∀ p, h'.optedIn p = h.optedIn p
  live : h'.livePeers = h.livePeers
  log : ∃ out, h'.log = h.log ++ out
  snapshots : ∀ p, h'.snapshotsTo p = h.snapshotsTo p ++
    if p ∈ h.livePeers ∧ h.optedIn p = true then [snapshot] else []

/-- The hello is kept with the peer, and the rest is what is sent. -/
theorem Welcomed.of_insert {p : Bytes} {id : Int} {m : HelloMsg} {peer : Peer}
    (stranger : h.greeted p = false)
    (peers : h'.peers = h.peers.insert p { peer with
      hello := true
      app := m.app
      platform := m.platform
      notifications := m.notifications })
    (threads : h'.threads = h.threads)
    (log : h'.log = h.log ++
      .text p (.welcome id p (iceServers opt io p) opt.heartbeatSec (io.now / second)) ::
        if m.notifications then [.text p (.notifications h.notifications)] else [])
    (current : h'.notifications = h.notifications) (live : h'.livePeers = h.livePeers) :
    Welcomed opt io h p id m h' where
  stranger := stranger
  threads := threads
  log := log
  current := current
  greeted q := by
    rw [Hub.greeted, peers, OrderedMap.get_insert]
    split
    · rfl
    · rfl
  optedIn q := by
    rw [Hub.optedIn, peers, OrderedMap.get_insert]
    split
    · rfl
    · rfl
  live := live

theorem onHello_cases (p : Bytes) (id : Int) (m : Except Bytes HelloMsg) :
    Unheard h (h.onHello opt io p id m) ∨
      ∃ hello, m = .ok hello ∧ Welcomed opt io h p id hello (h.onHello opt io p id m) := by
  cases m with
  | error err => exact .inl (unheard_refused ..)
  | ok m =>
    simp only [onHello]
    split
    · refine .inl (unheard_next fun t ht => ?_)
      obtain rfl | rfl : t = _ ∨ t = _ := by simpa using ht
      · rfl
      · rfl
    · split
      · exact .inl (.refl h)
      · rename_i peer hpeer
        split
        · exact .inl (unheard_refused ..)
        · rename_i hhello
          refine .inr ⟨m, rfl, ?_⟩
          have hstranger : h.greeted p = false := by
            simpa [Hub.greeted, hpeer] using hhello
          -- The two branches differ in what is sent only.
          split
          · rename_i hasks
            exact .of_insert hstranger rfl rfl (by simp [Hub.send, hasks]) rfl rfl
          · rename_i hasks
            exact .of_insert hstranger rfl rfl (by simp [Hub.send, hasks]) rfl rfl

/-- One peer that the loop of `SetNotifications` meets. -/
def announceTo (h : Hub) (p : Bytes) : Hub :=
  if (h.peers[p]?).elim false fun peer => peer.hello && peer.notifications then
    h.send p (.notifications h.notifications)
  else h

theorem announceTo_eq (h : Hub) (p : Bytes) : h.announceTo p = { h with
    log := h.log ++ if h.optedIn p then [.text p (.notifications h.notifications)] else [] } := by
  unfold announceTo
  rw [← optedIn]
  split
  · rfl
  · simp

/-- The loop sends the snapshot to those of the peers who asked for it. -/
theorem announceTo_foldl (ps : List Bytes) (h : Hub) : ps.foldl announceTo h = { h with
    log := h.log ++ ((ps.filter h.optedIn).map fun p => .text p (.notifications h.notifications)) } := by
  induction ps generalizing h with
  | nil => simp
  | cons p ps ih =>
    rw [List.foldl_cons, ih, announceTo_eq]
    have hsame : ∀ log, Hub.optedIn { h with log := log } = h.optedIn := fun log => rfl
    rw [hsame, List.filter_cons]
    split
    · simp [*]
    · simp [*]

/-- A peer that is met once is sent the snapshot once. -/
theorem snapshotsTo_announced {ps : List Bytes} (hnodup : ps.Nodup) (asked : Bytes → Bool)
    (snapshot p : Bytes) :
    (((ps.filter asked).map fun q => Output.text q (.notifications snapshot)).flatMap
      (Output.snapshotsTo p)) = if p ∈ ps ∧ asked p = true then [snapshot] else [] := by
  have hcount : ∀ qs : List Bytes, (qs.map fun q => Output.text q (.notifications snapshot)).flatMap
      (Output.snapshotsTo p) = List.replicate (qs.count p) snapshot := by
    intro qs
    induction qs with
    | nil => rfl
    | cons q qs ih =>
      rw [List.map_cons, List.flatMap_cons, ih, Output.snapshotsTo, List.count_cons]
      by_cases hq : q = p
      · simp [hq, List.replicate_succ]
      · simp [hq]
  rw [hcount, (hnodup.filter asked).count]
  simp only [List.mem_filter]
  split
  · rfl
  · rfl

theorem published_setNotifications (h : Hub) (snapshot : Bytes) :
    Published snapshot h (h.setNotifications io snapshot) := by
  set kept : Hub := { h with notifications := snapshot }
  have hasked : kept.optedIn = h.optedIn := rfl
  have heq : h.setNotifications io snapshot = { kept with
      log := h.log ++ (((io.order.keysOf h.livePeers).filter h.optedIn).map
        fun p => .text p (.notifications snapshot)) } :=
    announceTo_foldl (io.order.keysOf h.livePeers) kept
  rw [heq]
  refine ⟨rfl, rfl, fun p => rfl, fun p => rfl, rfl, ⟨_, rfl⟩, fun p => ?_⟩
  rw [snapshotsTo_append rfl, snapshotsTo_announced (MapOrder.nodup_keysOf ..)]
  simp only [MapOrder.mem_keysOf]

/-! ## Every step -/

/-- Who hears of the notifications in a step. -/
inductive Heard (opt : Options) (io : HubIo) (h : Hub) : Action → Hub → Prop where
  | nobody {a : Action} {h' : Hub} (same : Unheard h h') : Heard opt io h a h'
  | welcomed {p : Bytes} {id : Int} {m : HelloMsg} {h' : Hub} (live : p ∈ h.livePeers)
      (welcomed : Welcomed opt io h p id m h') :
      Heard opt io h (.text p (some ⟨id, .hello (.ok m)⟩)) h'
  | subscribers {snapshot : Bytes} {h' : Hub} (published : Published snapshot h h') :
      Heard opt io h (.setNotifications snapshot) h'

/-- A connected peer has said nothing yet. -/
theorem unheard_connect (hnew : io.peerId ∉ h.peers) (ip : Bytes) : Unheard h (h.connect io ip) := by
  have hnone : h.peers[io.peerId]? = none := Std.ExtTreeMap.getElem?_eq_none hnew
  refine ⟨fun p => .inl rfl, ⟨[], by simp [connect], by simp⟩, rfl, fun p => ?_, fun p => ?_,
    fun p hp hgreeted => ?_⟩
  · rw [Hub.greeted, connect, OrderedMap.get_insert]
    split
    · rename_i heq
      simp [Hub.greeted, heq, hnone]
    · rfl
  · rw [Hub.optedIn, connect, OrderedMap.get_insert]
    split
    · rename_i heq
      simp [Hub.optedIn, heq, hnone]
    · rfl
  · rw [Hub.greeted, connect, OrderedMap.get_insert] at hgreeted
    split at hgreeted
    · cases hgreeted
    · rename_i hother
      rw [connect, OrderedSet.mem_insert_iff] at hp
      exact hp.resolve_left hother

theorem heard_dispatch {p : Bytes} (hlive : p ∈ h.livePeers) (id : Int) (body : Body) :
    Heard opt io h (.text p (some ⟨id, body⟩)) (h.dispatch opt io p id body) := by
  cases body with
  | hello m =>
    obtain hsame | ⟨hello, rfl, hwelcomed⟩ := @onHello_cases opt io h p id m
    · exact .nobody hsame
    · exact .welcomed hlive hwelcomed
  | createShare m => exact .nobody (unheard_onCreateShare p id m)
  | closeShare m => exact .nobody (unheard_onCloseShare p id m)
  | claim m => exact .nobody (unheard_onClaim p id m)
  | signal m => exact .nobody (unheard_onSignal p id m)
  | leave m => exact .nobody (unheard_onLeave p id m)
  | ping => exact .nobody (unheard_next (by simp [Task.announces]))
  | pong => exact .nobody (.refl h)
  | unknown type => exact .nobody (unheard_refused ..)

theorem unheard_runTask {p : Bytes} {t : Task} (ht : t.announces = false) :
    Unheard h (h.runTask opt io p t) := by
  cases t with
  | sleep => exact (Unheard.refl h).output fun _ => rfl
  | send to_ m =>
    apply (Unheard.refl h).output
    cases m with
    | notifications snapshot => cases ht
    | _ => exact fun _ => rfl
  | binary to_ frame => exact (Unheard.refl h).output fun _ => rfl
  | kick reason => exact (Unheard.refl h).output fun _ => rfl
  | announce sid reqId resumed =>
    simp only [runTask, announceSession]
    split
    · exact .refl h
    · split
      · exact .refl h
      · split
        · exact .of_frame rfl rfl rfl (fun _ => rfl) fun _ hp => hp
        · exact unheard_next (by simp [Task.announces])
  | start to_ m => exact (Unheard.refl h).output fun _ => rfl

/-- The goroutine of `p` has one task less. -/
theorem unheard_rest {p : Bytes} {t : Task} {rest : List Task} (hthread : h.threads p = t :: rest)
    (hr : h.Reserved) : Unheard h (h.next p rest) := by
  apply unheard_next
  intro t' ht'
  apply hr p
  rw [hthread]
  exact List.mem_cons_of_mem t ht'

theorem heard_step {a : Action} (hr : h.Reserved) (hstep : step opt h (io, a) = some h') :
    Heard opt io h a h' := by
  obtain ⟨-, hfresh, heffect⟩ := of_step hstep
  cases a with
  | connect ip =>
    simp only at heffect
    subst heffect
    exact .nobody (unheard_connect (of_fresh hfresh).1 ip)
  | text p req =>
    obtain ⟨hidle, rfl⟩ := heffect
    simp only [idle, Bool.and_eq_true, decide_eq_true_eq] at hidle
    cases req with
    | none => exact .nobody (unheard_refused ..)
    | some req =>
      simp only [handleText]
      split
      · exact .nobody (unheard_refused ..)
      · exact heard_dispatch hidle.1 req.id req.body
  | binary p frame =>
    obtain ⟨-, rfl⟩ := heffect
    exact .nobody (unheard_handleBinary p frame)
  | task p =>
    obtain ⟨t, rest, hthread, rfl⟩ := heffect
    have ht : t.announces = false := hr p t (by simp [hthread])
    exact .nobody ((unheard_rest hthread hr).trans (unheard_runTask ht))
  | disconnect p =>
    obtain ⟨-, rfl⟩ := heffect
    exact .nobody (unheard_disconnect h p)
  | sweep =>
    simp only at heffect
    subst heffect
    exact .nobody (unheard_sweep h)
  | shutdown =>
    simp only at heffect
    subst heffect
    exact .nobody (unheard_shutdown h)
  | setNotifications snapshot =>
    simp only at heffect
    subst heffect
    exact .subscribers (published_setNotifications h snapshot)

theorem Heard.reserved {a : Action} (heard : Heard opt io h a h') (hr : h.Reserved) : h'.Reserved := by
  cases heard with
  | nobody same => exact same.reserved hr
  | welcomed live welcomed =>
    intro p
    rw [welcomed.threads]
    exact hr p
  | subscribers published =>
    intro p
    rw [published.threads]
    exact hr p

end Hub

end CrossTransfer.Signal
