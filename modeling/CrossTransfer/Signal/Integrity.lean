import CrossTransfer.Signal.Teardown

/-! # Referential integrity

In every reachable state the hub's maps hold the same shares and sessions. `Intact` is the
invariant: the maps agree (`Linked`), and what a session or a share refers to is still there. Each
handler adds an entry to all the maps it belongs to, or is a removal; `Integrity` is the property
in the terms of the maps.
-/

namespace CrossTransfer.Signal

open CrossTransfer.Library
open CrossTransfer.Transfer

namespace Tables

structure Intact (t : Tables) : Prop extends Linked t where
  shareLive : ∀ (sid : Bytes) (sess : Session), t.session? sid = some sess →
    sess.share ∈ t.liveShares
  receiverLive : ∀ (sid p : Bytes) (sess : Session), t.session? sid = some sess →
    sess.receiver = some p → p ∈ t.livePeers
  ownerLive : ∀ (id : Bytes) (s : Share), t.share? id = some s → s.owner ∈ t.livePeers

variable {t t' : Tables}

theorem mem_peers {p : Bytes} (h : p ∈ t.peers) : ∃ peer, t.peers[p]? = some peer :=
  Option.isSome_iff_exists.mp (Std.ExtTreeMap.mem_iff_isSome_getElem?.mp h)

theorem Intact.share_of_session (h : Intact t) {sid : Bytes} {sess : Session}
    (hsess : t.session? sid = some sess) :
    ∃ s, t.share? sess.share = some s ∧ s.owner = sess.sender := by
  obtain ⟨s, hs, howner⟩ := h.senders sid sess (session?_eq_some.mp hsess).2
  exact ⟨s, share?_eq_some.mpr ⟨h.shareLive sid sess hsess, hs⟩, howner⟩

/-- Both parties of a session are connected. -/
theorem Intact.party_live (h : Intact t) {sid p : Bytes} {sess : Session}
    (hsess : t.session? sid = some sess) (hparty : sess.sender = p ∨ sess.receiver = some p) :
    p ∈ t.livePeers := by
  obtain rfl | hreceiver := hparty
  · obtain ⟨s, hs, howner⟩ := h.share_of_session hsess
    exact howner ▸ h.ownerLive _ s hs
  · exact h.receiverLive sid p sess hsess hreceiver

/-- The references between the maps of the hub. -/
structure Integrity (t : Tables) : Prop where
  /-- A session is in the map of its share and of both parties, and its token leads to it. -/
  session : ∀ sid, sid ∈ t.liveSessions → ∃ sess s, t.sessions[sid]? = some sess ∧
    t.share? sess.share = some s ∧ sid ∈ s.sessions ∧ sess.sender = s.owner ∧
    sid ∈ t.peerSessions sess.sender ∧ (∀ p, sess.receiver = some p → sid ∈ t.peerSessions p) ∧
    t.tokens[sess.resumeToken]? = some sid
  share : ∀ (id : Bytes) (s : Share), t.shares[id]? = some s →
    (id ∈ t.liveShares ↔ s.owner ∈ t.livePeers ∧ id ∈ t.peerShares s.owner)
  /-- No map holds an entry for something that has been removed. -/
  shareEntry : ∀ id, id ∈ t.liveShares → id ∈ t.shares
  peerEntry : ∀ p, p ∈ t.livePeers → p ∈ t.peers
  shareSessions : ∀ (id sid : Bytes) (s : Share), t.shares[id]? = some s → sid ∈ s.sessions →
    ∃ sess, t.session? sid = some sess ∧ sess.share = id
  peerSessions : ∀ p sid, sid ∈ t.peerSessions p →
    p ∈ t.livePeers ∧ ∃ sess, t.session? sid = some sess ∧ (sess.sender = p ∨ sess.receiver = some p)
  peerShares : ∀ p id, id ∈ t.peerShares p → p ∈ t.livePeers ∧
    ∃ s, t.share? id = some s ∧ s.owner = p
  tokens : ∀ token sid : Bytes, t.tokens[token]? = some sid →
    ∃ sess, t.session? sid = some sess ∧ sess.resumeToken = token
  /-- The registry holds the shares whose code has not been consumed, in both its indexes. -/
  codes : ∀ id, id ∈ t.codes.byId ↔
    ∃ s, t.share? id = some s ∧ ¬ (s.mode = .once ∧ s.claimed = true)
  entry : ∀ (id : Bytes) (e : Codes.Entry), t.codes.byId[id]? = some e →
    ∃ s, t.share? id = some s ∧ e = ⟨id, s.code, s.expiresAt⟩
  consistent : t.codes.Consistent

theorem mem_peerShares {p : Bytes} {peer : Peer} (hpeer : t.peers[p]? = some peer) :
    t.peerShares p = peer.shares := by
  simp [Tables.peerShares, hpeer]

theorem mem_peerSessions {p : Bytes} {peer : Peer} (hpeer : t.peers[p]? = some peer) :
    t.peerSessions p = peer.sessions := by
  simp [Tables.peerSessions, hpeer]

theorem Intact.mem_sessions (h : Intact t) {p sid : Bytes} {sess : Session}
    (hsess : t.session? sid = some sess) (hparty : sess.sender = p ∨ sess.receiver = some p) :
    sid ∈ t.peerSessions p := by
  obtain ⟨peer, hpeer⟩ := mem_peers (h.peersLive p (h.party_live hsess hparty))
  rw [mem_peerSessions hpeer]
  exact (h.peerSessions p sid peer hpeer).mpr ⟨sess, hsess, hparty⟩

theorem Intact.integrity (h : Intact t) : Integrity t where
  session sid hlive := by
    obtain ⟨sess, hobject⟩ := Option.isSome_iff_exists.mp
      (Std.ExtTreeMap.mem_iff_isSome_getElem?.mp (h.sessionsLive sid hlive))
    have hsess := session?_eq_some.mpr ⟨hlive, hobject⟩
    obtain ⟨s, hs, howner⟩ := h.share_of_session hsess
    refine ⟨sess, s, hobject, hs, ?_, howner.symm, h.mem_sessions hsess (.inl rfl),
      fun p hp => h.mem_sessions hsess (.inr hp), (h.tokens _ sid).mpr ⟨sess, hsess, rfl⟩⟩
    exact (h.shareSessions _ sid s (share?_eq_some.mp hs).2).mpr ⟨sess, hsess, rfl⟩
  share id s hs := by
    constructor
    · intro hlive
      have hs' := share?_eq_some.mpr ⟨hlive, hs⟩
      obtain ⟨peer, hpeer⟩ := mem_peers (h.owners id s hs)
      refine ⟨h.ownerLive id s hs', ?_⟩
      rw [mem_peerShares hpeer]
      exact (h.peerShares _ id peer hpeer).mpr ⟨s, hs', rfl⟩
    · rintro ⟨-, hmem⟩
      obtain ⟨peer, hpeer⟩ := mem_peers (h.owners id s hs)
      rw [mem_peerShares hpeer, h.peerShares _ id peer hpeer] at hmem
      obtain ⟨s', hs', -⟩ := hmem
      exact (share?_eq_some.mp hs').1
  shareEntry := h.sharesLive
  peerEntry := h.peersLive
  shareSessions id sid s hs := (h.shareSessions id sid s hs).mp
  peerSessions p sid hmem := by
    unfold Tables.peerSessions at hmem
    cases hpeer : t.peers[p]? with
    | none => simp [hpeer] at hmem
    | some peer =>
      rw [hpeer, Option.elim_some, h.peerSessions p sid peer hpeer] at hmem
      obtain ⟨sess, hsess, hparty⟩ := hmem
      exact ⟨h.party_live hsess hparty, sess, hsess, hparty⟩
  peerShares p id hmem := by
    unfold Tables.peerShares at hmem
    cases hpeer : t.peers[p]? with
    | none => simp [hpeer] at hmem
    | some peer =>
      rw [hpeer, Option.elim_some, h.peerShares p id peer hpeer] at hmem
      obtain ⟨s, hs, rfl⟩ := hmem
      exact ⟨h.ownerLive id s hs, s, hs, rfl⟩
  tokens token sid := (h.tokens token sid).mp
  codes id := by
    rw [Std.ExtTreeMap.mem_iff_isSome_getElem?, Option.isSome_iff_exists]
    simp only [h.codes]
    grind
  entry id e he := by
    obtain ⟨s, hs, -, heq⟩ := (h.codes id e).mp he
    exact ⟨s, hs, heq⟩
  consistent := h.consistent

/-! ## Removals -/

theorem Intact.of_closing {D : Bytes → Prop} (h : Intact t) (hc : Closing D t t') : Intact t' where
  toLinked := hc.linked h.toLinked
  shareLive sid sess hsess := by
    obtain ⟨hsess, hstays⟩ := hc.session?.mp hsess
    have hlive := h.shareLive sid sess hsess
    exact (hc.liveShares _).mpr
      ⟨hlive, fun hD => hstays ⟨sess, (session?_eq_some.mp hsess).2, hlive, hD⟩⟩
  receiverLive sid p sess hsess := by
    rw [hc.livePeers]
    exact h.receiverLive sid p sess (hc.session?.mp hsess).1
  ownerLive id s' hs' := by
    obtain ⟨-, s, hs, hminus⟩ := hc.of_share? hs'
    rw [hc.livePeers, hminus.same]
    exact h.ownerLive id s hs

/-- Sessions go, shares stay. -/
theorem Intact.of_removal {S : Bytes → Prop} (h : Intact t)
    (hr : Removal (fun _ => False) S t t') : Intact t' where
  toLinked := hr.linked h.toLinked
  shareLive sid sess hsess := by
    rw [hr.liveShares, not_false_iff, and_true]
    exact h.shareLive sid sess (hr.session?.mp hsess).1
  receiverLive sid p sess hsess := by
    rw [hr.livePeers]
    exact h.receiverLive sid p sess (hr.session?.mp hsess).1
  ownerLive id s' hs' := by
    obtain ⟨-, s, hs, hminus⟩ := hr.of_share? hs'
    rw [hr.livePeers, hminus.same]
    exact h.ownerLive id s hs

/-! ## Peers -/

/-- A new peer owns nothing and takes part in nothing. -/
theorem Intact.connect (h : Intact t) {p : Bytes} (hnew : p ∉ t.peers) (ip : Bytes) :
    Intact { t with
      peers := t.peers.insert p { ip := ip }
      livePeers := t.livePeers.insert p } where
  owners id s hs := by
    rw [Std.ExtTreeMap.mem_insert]
    exact .inr (h.owners id s hs)
  senders := h.senders
  receivers sid q sess hsess hreceiver := by
    rw [Std.ExtTreeMap.mem_insert]
    exact .inr (h.receivers sid q sess hsess hreceiver)
  peersLive q hq := by
    rw [OrderedSet.mem_insert_iff] at hq
    rw [Std.ExtTreeMap.mem_insert, Std.LawfulEqCmp.compare_eq_iff_eq]
    exact hq.imp Eq.symm (h.peersLive q)
  sharesLive := h.sharesLive
  sessionsLive := h.sessionsLive
  shareSessions := h.shareSessions
  peerSessions q sid peer hpeer := by
    rw [OrderedMap.get_insert] at hpeer
    split at hpeer
    · rename_i heq
      obtain rfl := Option.some.inj hpeer
      refine iff_of_false (OrderedSet.not_mem_empty_iff sid) ?_
      rintro ⟨sess, hsess, hparty⟩
      exact hnew (h.peersLive p (h.party_live hsess (heq ▸ hparty)))
    · exact h.peerSessions q sid peer hpeer
  tokens := h.tokens
  peerShares q id peer hpeer := by
    rw [OrderedMap.get_insert] at hpeer
    split at hpeer
    · rename_i heq
      obtain rfl := Option.some.inj hpeer
      refine iff_of_false (OrderedSet.not_mem_empty_iff id) ?_
      rintro ⟨s, hs, rfl⟩
      exact hnew (heq ▸ h.peersLive _ (h.ownerLive id s hs))
    · exact h.peerShares q id peer hpeer
  consistent := h.consistent
  codes := h.codes
  shareLive := h.shareLive
  receiverLive sid q sess hsess hreceiver := by
    rw [OrderedSet.mem_insert_iff]
    exact .inr (h.receiverLive sid q sess hsess hreceiver)
  ownerLive id s hs := by
    rw [OrderedSet.mem_insert_iff]
    exact .inr (h.ownerLive id s hs)

/-- A peer record changes in what it says about the peer. -/
theorem Intact.greet (h : Intact t) {p : Bytes} {peer peer' : Peer} (hpeer : t.peers[p]? = some peer)
    (hshares : peer'.shares = peer.shares) (hsessions : peer'.sessions = peer.sessions) :
    Intact { t with peers := t.peers.insert p peer' } where
  owners id s hs := by
    rw [Std.ExtTreeMap.mem_insert]
    exact .inr (h.owners id s hs)
  senders := h.senders
  receivers sid q sess hsess hreceiver := by
    rw [Std.ExtTreeMap.mem_insert]
    exact .inr (h.receivers sid q sess hsess hreceiver)
  peersLive q hq := by
    rw [Std.ExtTreeMap.mem_insert]
    exact .inr (h.peersLive q hq)
  sharesLive := h.sharesLive
  sessionsLive := h.sessionsLive
  shareSessions := h.shareSessions
  peerSessions q sid peer'' hget := by
    rw [OrderedMap.get_insert] at hget
    split at hget
    · rename_i heq
      obtain rfl := Option.some.inj hget
      rw [hsessions]
      exact h.peerSessions q sid peer (heq ▸ hpeer)
    · exact h.peerSessions q sid peer'' hget
  tokens := h.tokens
  peerShares q id peer'' hget := by
    rw [OrderedMap.get_insert] at hget
    split at hget
    · rename_i heq
      obtain rfl := Option.some.inj hget
      rw [hshares]
      exact h.peerShares q id peer (heq ▸ hpeer)
    · exact h.peerShares q id peer'' hget
  consistent := h.consistent
  codes := h.codes
  shareLive := h.shareLive
  receiverLive := h.receiverLive
  ownerLive := h.ownerLive

/-! ## New shares and sessions -/

/-- The entry of a peer after a change of its record. -/
theorem of_modify {peers : OrderedMap Bytes Peer} {p q : Bytes} {f : Peer → Peer} {peer' : Peer}
    (h : (peers.modify p f)[q]? = some peer') :
    ∃ peer, peers[q]? = some peer ∧ peer' = if q = p then f peer else peer := by
  rw [OrderedMap.get_modify] at h
  split at h
  · rename_i heq
    obtain ⟨peer, hpeer, rfl⟩ := Option.map_eq_some_iff.mp h
    exact ⟨peer, hpeer, (if_pos heq).symm⟩
  · rename_i hne
    exact ⟨peer', h, (if_neg hne).symm⟩

/-- A new share of a connected peer, with the code that the registry gave it. -/
theorem Intact.addShare (h : Intact t) {id : Bytes} {s : Share} {codes : Registry} {e : Codes.Entry}
    {random : Nat → Option (Fin Codes.length → UInt8)} (howner : s.owner ∈ t.livePeers)
    (hnew : id ∉ t.shares) (hempty : s.sessions = ∅) (hopen : s.claimed = false)
    (hadd : t.codes.add random id s.expiresAt = some (codes, e)) (hcode : s.code = e.code) :
    Intact { t with
      codes := codes
      shares := t.shares.insert id s
      liveShares := t.liveShares.insert id
      peers := t.peers.modify s.owner (·.addShare id) } := by
  set t' : Tables := { t with
    codes := codes
    shares := t.shares.insert id s
    liveShares := t.liveShares.insert id
    peers := t.peers.modify s.owner (·.addShare id) }
  have hshare : ∀ id', t'.share? id' = if id' = id then some s else t.share? id' := by
    intro id'
    unfold share?
    simp only [t', OrderedSet.mem_insert_iff, OrderedMap.get_insert]
    by_cases heq : id' = id
    · simp [heq]
    · simp [heq]
  -- No session belongs to a share that has not been there.
  have hother : ∀ (sid : Bytes) (sess : Session), t.sessions[sid]? = some sess → sess.share ≠ id := by
    rintro sid sess hsess rfl
    obtain ⟨s', hs', -⟩ := h.senders sid sess hsess
    exact hnew (Std.ExtTreeMap.mem_iff_isSome_getElem?.mpr (by simp [hs']))
  obtain ⟨-, -, rfl, hexpires, hbyId, -⟩ := Registry.of_add hadd
  refine ⟨⟨?_, ?_, ?_, ?_, ?_, h.sessionsLive, ?_, ?_, h.tokens, ?_, h.consistent.add hadd, ?_⟩,
    ?_, h.receiverLive, ?_⟩
  · -- owners
    intro id' s' hs'
    rw [Std.ExtTreeMap.mem_modify]
    simp only [t', OrderedMap.get_insert] at hs'
    split at hs'
    · obtain rfl := Option.some.inj hs'
      exact h.peersLive _ howner
    · exact h.owners id' s' hs'
  · -- senders
    intro sid sess hsess
    simp only [t', OrderedMap.get_insert]
    rw [if_neg (hother sid sess hsess)]
    exact h.senders sid sess hsess
  · -- receivers
    intro sid q sess hsess hreceiver
    rw [Std.ExtTreeMap.mem_modify]
    exact h.receivers sid q sess hsess hreceiver
  · -- peersLive
    intro q hq
    rw [Std.ExtTreeMap.mem_modify]
    exact h.peersLive q hq
  · -- sharesLive
    intro id' hid'
    rw [OrderedSet.mem_insert_iff] at hid'
    rw [Std.ExtTreeMap.mem_insert, Std.LawfulEqCmp.compare_eq_iff_eq]
    exact hid'.imp Eq.symm (h.sharesLive id')
  · -- shareSessions
    intro id' sid s' hs'
    simp only [t', OrderedMap.get_insert] at hs'
    split at hs'
    · rename_i heq
      obtain rfl := Option.some.inj hs'
      rw [hempty]
      refine iff_of_false (OrderedSet.not_mem_empty_iff sid) ?_
      rintro ⟨sess, hsess, hshare⟩
      exact hother sid sess (session?_eq_some.mp hsess).2 (hshare.trans heq)
    · exact h.shareSessions id' sid s' hs'
  · -- peerSessions
    intro q sid peer' hpeer'
    obtain ⟨peer, hpeer, rfl⟩ := of_modify hpeer'
    have hsame : (if q = s.owner then peer.addShare e.id else peer).sessions = peer.sessions := by
      split <;> rfl
    rw [hsame]
    exact h.peerSessions q sid peer hpeer
  · -- peerShares
    intro q id' peer' hpeer'
    obtain ⟨peer, hpeer, rfl⟩ := of_modify hpeer'
    rw [hshare]
    have hpeerShares := h.peerShares q id' peer hpeer
    by_cases hid : id' = e.id
    · have hnone : id' ∉ peer.shares := by
        rw [hpeerShares]
        rintro ⟨s', hs', -⟩
        exact hnew (hid ▸ h.sharesLive id' (share?_eq_some.mp hs').1)
      rw [if_pos hid]
      split
      · rename_i hq
        simp [hid, hq]
      · rename_i hq
        simpa [hnone] using Ne.symm hq
    · rw [if_neg hid, ← hpeerShares]
      split
      · rw [Peer.mem_addShare, or_iff_right hid]
      · rfl
  · -- codes
    intro id' e'
    rw [hshare, hbyId, OrderedMap.get_insert]
    split
    · rename_i heq
      subst heq
      constructor
      · intro hentry
        obtain rfl := Option.some.inj hentry
        refine ⟨s, rfl, by simp [hopen], ?_⟩
        rw [hcode, ← hexpires]
      · rintro ⟨s', hs', -, rfl⟩
        obtain rfl := Option.some.inj hs'
        rw [hcode, ← hexpires]
    · exact h.codes id' e'
  · -- shareLive
    intro sid sess hsess
    rw [OrderedSet.mem_insert_iff]
    exact .inr (h.shareLive sid sess hsess)
  · -- ownerLive
    intro id' s' hs'
    rw [hshare] at hs'
    split at hs'
    · obtain rfl := Option.some.inj hs'
      exact howner
    · exact h.ownerLive id' s' hs'

/-- A connected peer becomes the receiver of a session that has none. -/
theorem Intact.attach (h : Intact t) {p sid : Bytes} {sess : Session} (hp : p ∈ t.livePeers)
    (hsess : t.session? sid = some sess) (hnone : sess.receiver = none) :
    Intact { t with
      sessions := t.sessions.insert sid { sess with receiver := some p }
      peers := t.peers.modify p (·.addSession sid) } := by
  set t' : Tables := { t with
    sessions := t.sessions.insert sid { sess with receiver := some p }
    peers := t.peers.modify p (·.addSession sid) }
  have hlive := (session?_eq_some.mp hsess).1
  have hobject := (session?_eq_some.mp hsess).2
  have hsession : ∀ sid', t'.session? sid' =
      if sid' = sid then some { sess with receiver := some p } else t.session? sid' := by
    intro sid'
    unfold session?
    simp only [t', OrderedMap.get_insert]
    by_cases heq : sid' = sid
    · simp [heq, hlive]
    · simp [heq]
  -- Only the receiver of the session has changed.
  have hexists : ∀ sid' (P : Session → Prop), (P { sess with receiver := some p } ↔ P sess) →
      ((∃ sess, t'.session? sid' = some sess ∧ P sess) ↔
        ∃ sess, t.session? sid' = some sess ∧ P sess) := by
    intro sid' P hP
    rw [hsession]
    split
    · rename_i heq
      simp [heq, hsess, hP]
    · rfl
  refine ⟨⟨?_, ?_, ?_, ?_, h.sharesLive, ?_, ?_, ?_, ?_, ?_, h.consistent, h.codes⟩, ?_, ?_,
    h.ownerLive⟩
  · -- owners
    intro id s hs
    rw [Std.ExtTreeMap.mem_modify]
    exact h.owners id s hs
  · -- senders
    intro sid' sess' hsess'
    simp only [t', OrderedMap.get_insert] at hsess'
    split at hsess'
    · obtain rfl := Option.some.inj hsess'
      exact h.senders sid sess hobject
    · exact h.senders sid' sess' hsess'
  · -- receivers
    intro sid' q sess' hsess' hreceiver
    rw [Std.ExtTreeMap.mem_modify]
    simp only [t', OrderedMap.get_insert] at hsess'
    split at hsess'
    · obtain rfl := Option.some.inj hsess'
      obtain rfl := Option.some.inj hreceiver
      exact h.peersLive _ hp
    · exact h.receivers sid' q sess' hsess' hreceiver
  · -- peersLive
    intro q hq
    rw [Std.ExtTreeMap.mem_modify]
    exact h.peersLive q hq
  · -- sessionsLive
    intro sid' hsid'
    rw [Std.ExtTreeMap.mem_insert]
    exact .inr (h.sessionsLive sid' hsid')
  · -- shareSessions
    intro id sid' s hs
    rw [h.shareSessions id sid' s hs]
    exact (hexists sid' _ .rfl).symm
  · -- peerSessions
    intro q sid' peer' hpeer'
    obtain ⟨peer, hpeer, rfl⟩ := of_modify hpeer'
    have hpeerSessions := h.peerSessions q sid' peer hpeer
    rw [hsession]
    by_cases hsid : sid' = sid
    · subst hsid
      rw [hsess] at hpeerSessions
      split <;> simp_all [eq_comm]
    · rw [if_neg hsid, ← hpeerSessions]
      split <;> simp [hsid]
  · -- tokens
    intro token sid'
    rw [h.tokens]
    exact (hexists sid' _ .rfl).symm
  · -- peerShares
    intro q id peer' hpeer'
    obtain ⟨peer, hpeer, rfl⟩ := of_modify hpeer'
    have hsame : (if q = p then peer.addSession sid else peer).shares = peer.shares := by
      split <;> rfl
    rw [hsame]
    exact h.peerShares q id peer hpeer
  · -- shareLive
    intro sid' sess' hsess'
    rw [hsession] at hsess'
    split at hsess'
    · obtain rfl := Option.some.inj hsess'
      exact h.shareLive sid sess hsess
    · exact h.shareLive sid' sess' hsess'
  · -- receiverLive
    intro sid' q sess' hsess' hreceiver
    rw [hsession] at hsess'
    split at hsess'
    · obtain rfl := Option.some.inj hsess'
      obtain rfl := Option.some.inj hreceiver
      exact hp
    · exact h.receiverLive sid' q sess' hsess' hreceiver

/-- A connected peer starts a session of a share. -/
theorem Intact.addSession (h : Intact t) {p sid id token : Bytes} {s : Share} (now : Int)
    (hp : p ∈ t.livePeers) (hs : t.share? id = some s) (hnew : sid ∉ t.sessions)
    (htoken : ∀ (sid : Bytes) (sess : Session), t.sessions[sid]? = some sess →
      sess.resumeToken ≠ token) :
    Intact { t with
      sessions := t.sessions.insert sid
        { share := id, sender := s.owner, receiver := some p, resumeToken := token, createdAt := now }
      liveSessions := t.liveSessions.insert sid
      tokens := t.tokens.insert token sid
      shares := t.shares.insert id { s with
        sessions := s.sessions.insert sid
        claimed := if s.mode = .once then true else s.claimed }
      peers := (t.peers.modify s.owner (·.addSession sid)).modify p (·.addSession sid)
      codes := if s.mode = .once then t.codes.remove id else t.codes } := by
  set sess : Session :=
    { share := id, sender := s.owner, receiver := some p, resumeToken := token, createdAt := now }
  set s' : Share := { s with
    sessions := s.sessions.insert sid
    claimed := if s.mode = .once then true else s.claimed }
  set t' : Tables := { t with
    sessions := t.sessions.insert sid sess
    liveSessions := t.liveSessions.insert sid
    tokens := t.tokens.insert token sid
    shares := t.shares.insert id s'
    peers := (t.peers.modify s.owner (·.addSession sid)).modify p (·.addSession sid)
    codes := if s.mode = .once then t.codes.remove id else t.codes }
  obtain ⟨hlive, hobject⟩ := share?_eq_some.mp hs
  have hshare : ∀ id', t'.share? id' = if id' = id then some s' else t.share? id' := by
    intro id'
    unfold share?
    simp only [t', OrderedMap.get_insert]
    by_cases heq : id' = id
    · simp [heq, hlive]
    · simp [heq]
  have hsession : ∀ sid', t'.session? sid' = if sid' = sid then some sess else t.session? sid' := by
    intro sid'
    unfold session?
    simp only [t', OrderedSet.mem_insert_iff, OrderedMap.get_insert]
    by_cases heq : sid' = sid
    · simp [heq]
    · simp [heq]
  have hdead : t.session? sid = none := by
    unfold session?
    rw [if_neg fun hmem => hnew (h.sessionsLive sid hmem)]
  have hpeers : ∀ {q : Bytes} {peer' : Peer}, t'.peers[q]? = some peer' →
      ∃ peer, t.peers[q]? = some peer ∧ peer'.shares = peer.shares ∧
        ∀ sid', sid' ∈ peer'.sessions ↔
          sid' = sid ∧ (s.owner = q ∨ p = q) ∨ sid' ∈ peer.sessions := by
    intro q peer' hpeer'
    obtain ⟨peer₁, hpeer₁, rfl⟩ := of_modify hpeer'
    obtain ⟨peer, hpeer, rfl⟩ := of_modify hpeer₁
    refine ⟨peer, hpeer, ?_, fun sid' => ?_⟩
    · split <;> split <;> rfl
    · split <;> split <;> simp_all [eq_comm]
  refine ⟨⟨?_, ?_, ?_, ?_, ?_, ?_, ?_, ?_, ?_, ?_, ?_, ?_⟩, ?_, ?_, ?_⟩
  · -- owners
    intro id' s'' hs''
    rw [Std.ExtTreeMap.mem_modify, Std.ExtTreeMap.mem_modify]
    simp only [t', OrderedMap.get_insert] at hs''
    split at hs''
    · obtain rfl := Option.some.inj hs''
      exact h.owners id s hobject
    · exact h.owners id' s'' hs''
  · -- senders
    intro sid' sess' hsess'
    simp only [t', OrderedMap.get_insert] at hsess' ⊢
    split at hsess'
    · obtain rfl := Option.some.inj hsess'
      exact ⟨s', if_pos rfl, rfl⟩
    · obtain ⟨s₀, hs₀, howner⟩ := h.senders sid' sess' hsess'
      split
      · rename_i heq
        rw [heq, hobject] at hs₀
        obtain rfl := Option.some.inj hs₀
        exact ⟨s', rfl, howner⟩
      · exact ⟨s₀, hs₀, howner⟩
  · -- receivers
    intro sid' q sess' hsess' hreceiver
    rw [Std.ExtTreeMap.mem_modify, Std.ExtTreeMap.mem_modify]
    simp only [t', OrderedMap.get_insert] at hsess'
    split at hsess'
    · obtain rfl := Option.some.inj hsess'
      obtain rfl := Option.some.inj hreceiver
      exact h.peersLive _ hp
    · exact h.receivers sid' q sess' hsess' hreceiver
  · -- peersLive
    intro q hq
    rw [Std.ExtTreeMap.mem_modify, Std.ExtTreeMap.mem_modify]
    exact h.peersLive q hq
  · -- sharesLive
    intro id' hid'
    rw [Std.ExtTreeMap.mem_insert]
    exact .inr (h.sharesLive id' hid')
  · -- sessionsLive
    intro sid' hsid'
    rw [OrderedSet.mem_insert_iff] at hsid'
    rw [Std.ExtTreeMap.mem_insert, Std.LawfulEqCmp.compare_eq_iff_eq]
    exact hsid'.imp Eq.symm (h.sessionsLive sid')
  · -- shareSessions
    intro id' sid' s'' hs''
    rw [hsession]
    simp only [t', OrderedMap.get_insert] at hs''
    by_cases hsid : sid' = sid
    · rw [if_pos hsid]
      split at hs''
      · rename_i heq
        obtain rfl := Option.some.inj hs''
        simp [s', sess, hsid, heq]
      · rename_i hne
        have hnone := h.shareSessions id' sid s'' hs''
        rw [hdead] at hnone
        subst hsid
        refine iff_of_false (fun hmem => ?_) ?_
        · obtain ⟨_, hsess, -⟩ := hnone.mp hmem
          cases hsess
        · rintro ⟨_, hsess, rfl⟩
          obtain rfl := Option.some.inj hsess
          exact hne rfl
    · rw [if_neg hsid]
      split at hs''
      · rename_i heq
        obtain rfl := Option.some.inj hs''
        rw [heq, ← h.shareSessions id sid' s hobject, OrderedSet.mem_insert_iff, or_iff_right hsid]
      · exact h.shareSessions id' sid' s'' hs''
  · -- peerSessions
    intro q sid' peer' hpeer'
    obtain ⟨peer, hpeer, -, hmem⟩ := hpeers hpeer'
    have hpeerSessions := h.peerSessions q sid' peer hpeer
    rw [hmem, hsession]
    by_cases hsid : sid' = sid
    · rw [hsid, hdead] at hpeerSessions
      rw [if_pos hsid, hsid, hpeerSessions]
      simp [sess]
    · rw [if_neg hsid, ← hpeerSessions]
      simp [hsid]
  · -- tokens
    intro token' sid'
    simp only [t', OrderedMap.get_insert]
    rw [hsession]
    have hold := h.tokens token' sid'
    by_cases hsid : sid' = sid
    · subst hsid
      rw [hdead] at hold
      rw [if_pos rfl]
      split
      · rename_i heq
        simp [sess, heq]
      · rename_i hne
        rw [hold]
        simpa [sess] using Ne.symm hne
    · rw [if_neg hsid, ← hold]
      split
      · rename_i heq
        refine iff_of_false (fun hsome => hsid (Option.some.inj hsome).symm) fun htok => ?_
        obtain ⟨sess', hsess', htoken'⟩ := hold.mp htok
        exact htoken sid' sess' (session?_eq_some.mp hsess').2 (htoken'.trans heq)
      · rfl
  · -- peerShares
    intro q id' peer' hpeer'
    obtain ⟨peer, hpeer, hshares, -⟩ := hpeers hpeer'
    rw [hshares, h.peerShares q id' peer hpeer, hshare]
    split
    · rename_i heq
      rw [heq, hs]
      simp [s']
    · rfl
  · -- consistent
    simp only [t']
    split
    · exact h.consistent.remove id
    · exact h.consistent
  · -- codes
    intro id' e
    rw [hshare]
    have hold := h.codes id' e
    by_cases hid : id' = id
    · subst hid
      rw [hs] at hold
      rw [if_pos rfl]
      simp only [t', s']
      split
      · rename_i honce
        rw [Registry.get_remove, if_pos rfl]
        simp [honce]
      · rw [hold]
        simp
    · rw [if_neg hid, ← hold]
      simp only [t']
      split
      · rw [Registry.get_remove, if_neg hid]
      · rfl
  · -- shareLive
    intro sid' sess' hsess'
    rw [hsession] at hsess'
    split at hsess'
    · obtain rfl := Option.some.inj hsess'
      exact hlive
    · exact h.shareLive sid' sess' hsess'
  · -- receiverLive
    intro sid' q sess' hsess' hreceiver
    rw [hsession] at hsess'
    split at hsess'
    · obtain rfl := Option.some.inj hsess'
      obtain rfl := Option.some.inj hreceiver
      exact hp
    · exact h.receiverLive sid' q sess' hsess' hreceiver
  · -- ownerLive
    intro id' s'' hs''
    rw [hshare] at hs''
    split at hs''
    · obtain rfl := Option.some.inj hs''
      exact h.ownerLive id s hs
    · exact h.ownerLive id' s'' hs''

end Tables

namespace Hub

open Tables

variable {opt : Options} {io : HubIo} {h : Hub}

/-! ## Handlers that leave the maps alone -/

theorem tables_onHello (p : Bytes) (id : Int) (m : Except Bytes HelloMsg)
    (hi : Intact h.toTables) : Intact (h.onHello opt io p id m).toTables := by
  unfold onHello
  split
  · exact hi
  · simp only
    split
    · exact hi
    · split
      · exact hi
      · rename_i peer hpeer
        split
        · exact hi
        · split
          · exact hi.greet hpeer rfl rfl
          · exact hi.greet hpeer rfl rfl

theorem tables_onSignal (p : Bytes) (id : Int) (m : Except Bytes SignalMsg) :
    (h.onSignal p id m).toTables = h.toTables := by
  unfold onSignal
  split
  · rfl
  · split
    · rfl
    · split
      · rfl
      · split
        · rfl
        · split <;> rfl

theorem tables_handleBinary (p frame : Bytes) :
    (h.handleBinary io p frame).toTables = h.toTables := by
  unfold handleBinary
  split
  · rfl
  · split
    · rfl
    · split
      · rfl
      · split
        · rfl
        · split
          · rfl
          · split <;> rfl

theorem tables_setNotifications (h : Hub) (snapshot : Bytes) :
    (h.setNotifications io snapshot).toTables = h.toTables := by
  have hfold : ∀ (ps : List Bytes) (h : Hub), (ps.foldl (fun h p =>
      if (h.peers[p]?).elim false fun peer => peer.hello && peer.notifications then
        h.send p (.notifications h.notifications)
      else h) h).toTables = h.toTables := by
    intro ps
    induction ps with
    | nil => exact fun _ => rfl
    | cons p ps ih =>
      intro h
      rw [List.foldl_cons, ih]
      split <;> rfl
  exact hfold _ _

theorem tables_announceSession (p sid : Bytes) (reqId : Int) (resumed : Bool) :
    (h.announceSession p sid reqId resumed).toTables = h.toTables := by
  unfold announceSession
  split
  · rfl
  · split
    · rfl
    · split <;> rfl

theorem tables_runTask (p : Bytes) (task : Task) :
    (h.runTask opt io p task).toTables = h.toTables := by
  cases task with
  | announce sid reqId resumed => exact tables_announceSession p sid reqId resumed
  | _ => rfl

theorem tables_claimAllowed (ip : Bytes) : (h.claimAllowed opt io ip).2.toTables = h.toTables := by
  unfold claimAllowed
  split
  · rfl
  · split <;> rfl

/-! ## Handlers that change them -/

theorem intact_onCreateShare (hi : Intact h.toTables) {p : Bytes} (hp : p ∈ h.livePeers)
    (hnew : io.shareId ∉ h.shares) (id : Int) (m : Except Bytes CreateShareMsg) :
    Intact (h.onCreateShare opt io p id m).toTables := by
  unfold onCreateShare
  split
  · exact hi
  · simp only
    split
    · exact hi
    · split
      · exact hi
      · split
        · exact hi
        · split
          · exact hi
          · split
            · exact hi
            · rename_i codes entry hadd
              exact hi.addShare (s := Share.mk entry.code _ p _ _ false ∅) hp hnew rfl rfl hadd rfl

theorem intact_onCloseShare (hi : Intact h.toTables) (p : Bytes) (id : Int)
    (m : Except Bytes Bytes) : Intact (h.onCloseShare io p id m).toTables := by
  unfold onCloseShare
  split
  · exact hi
  · split
    · exact hi
    · split
      · exact hi
      · exact hi.of_closing (closing_closeShare hi.toLinked ..)

theorem intact_onLeave (hi : Intact h.toTables) (p : Bytes) (id : Int) (m : Except Bytes Bytes) :
    Intact (h.onLeave p id m).toTables := by
  unfold onLeave
  split
  · exact hi
  · split
    · exact hi
    · exact hi.of_removal (removal_endSession hi.toLinked ..)

theorem intact_claimToken (hi : Intact h.toTables) {p : Bytes} (hp : p ∈ h.livePeers) (id : Int)
    (token : Bytes) : Intact (h.claimToken opt p id token).toTables := by
  unfold claimToken
  split
  · exact hi
  · rename_i sid sess hfound
    split
    · exact hi
    · rename_i hfree
      split
      · exact hi
      · rw [Option.bind_eq_some_iff] at hfound
        obtain ⟨sid', htoken, hfound⟩ := hfound
        obtain ⟨sess', hobject, heq⟩ := Option.map_eq_some_iff.mp hfound
        obtain ⟨rfl, rfl⟩ := Prod.mk.inj heq
        -- A token leads to a session that there is.
        obtain ⟨sess'', hsess, -⟩ := (hi.tokens token sid').mp htoken
        obtain rfl := Option.some.inj (hobject.symm.trans (session?_eq_some.mp hsess).2)
        exact hi.attach hp hsess (by simpa using hfree)

theorem intact_claimCode (hi : Intact h.toTables) {p : Bytes} (hp : p ∈ h.livePeers)
    (hnew : io.sessionId ∉ h.sessions) (htoken : ∀ (sid : Bytes) (sess : Session),
      h.sessions[sid]? = some sess → sess.resumeToken ≠ io.token) (id : Int) (code : Bytes) :
    Intact (h.claimCode opt io p id code).toTables := by
  unfold claimCode
  split
  · exact hi
  · exact hi
  · split
    · exact hi
    · rename_i s hs
      split
      · exact hi
      · split
        · exact hi
        · exact hi.addSession io.now hp hs hnew htoken

theorem intact_onClaim (hi : Intact h.toTables) {p : Bytes} (hp : p ∈ h.livePeers)
    (hnew : io.sessionId ∉ h.sessions) (htoken : ∀ (sid : Bytes) (sess : Session),
      h.sessions[sid]? = some sess → sess.resumeToken ≠ io.token) (id : Int)
    (m : Except Bytes ClaimMsg) : Intact (h.onClaim opt io p id m).toTables := by
  unfold onClaim
  split
  · exact hi
  · split
    · exact hi
    · have htables : (h.claimAllowed opt io (h.peerIp p)).2.toTables = h.toTables :=
        tables_claimAllowed (h.peerIp p)
      simp only
      rw [← htables] at hi hp hnew htoken
      split
      · exact hi
      · split
        · exact intact_claimToken hi hp id _
        · exact intact_claimCode hi hp hnew htoken id _

/-- Without a peer in `livePeers` the maps agree as before. -/
theorem linked_erasePeer (hl : Linked h.toTables) (p : Bytes) :
    Linked { h.toTables with livePeers := h.livePeers.erase p } where
  owners := hl.owners
  senders := hl.senders
  receivers := hl.receivers
  peersLive q hq := by
    rw [OrderedSet.mem_erase_iff] at hq
    exact hl.peersLive q hq.2
  sharesLive := hl.sharesLive
  sessionsLive := hl.sessionsLive
  shareSessions := hl.shareSessions
  peerSessions := hl.peerSessions
  tokens := hl.tokens
  peerShares := hl.peerShares
  consistent := hl.consistent
  codes := hl.codes

theorem closing_closeShares (reason : Reason) (initiator : Option Bytes) (ids : List Bytes)
    (h : Hub) (ht : Linked h.toTables) :
    Closing (· ∈ ids) h.toTables
      (ids.foldl (fun h id => h.closeShareLocked io id reason initiator) h).toTables := by
  have hclosing := closing_foldl (f := fun h id => h.closeShareLocked io id reason initiator)
    (Q := fun _ _ => True) (fun h id ht => ?_) (fun _ _ => .rfl) ids h ht
  · simpa only [and_true] using hclosing
  · simpa only [and_true] using closing_closeShare ht id reason initiator

theorem intact_disconnect (hi : Intact h.toTables) (p : Bytes) :
    Intact (h.disconnect io p).toTables := by
  unfold disconnect
  split
  · exact hi
  · rename_i hlive
    rw [not_not] at hlive
    simp only
    set gone : Hub := { h with livePeers := h.livePeers.erase p } with hgone
    have hgoneLinked : Linked gone.toTables := linked_erasePeer hi.toLinked p
    set closed := (io.order.keysOf (gone.peerShares p)).foldl
      (fun h id => h.closeShareLocked io id .peerOffline (some p)) gone
    have hclosing : Closing (· ∈ io.order.keysOf (gone.peerShares p)) gone.toTables closed.toTables :=
      closing_closeShares _ _ _ gone hgoneLinked
    have hclosedLinked := hclosing.linked hgoneLinked
    obtain ⟨peer, hpeer⟩ := mem_peers (hi.peersLive p hlive)
    -- The peer's shares are gone, and with them the sessions it sends in.
    have howned : ∀ id s, h.share? id = some s → s.owner = p →
        id ∈ io.order.keysOf (gone.peerShares p) := by
      intro id s hs howner
      rw [MapOrder.mem_keysOf, mem_peerShares (t := gone.toTables) hpeer]
      exact (hi.peerShares p id peer hpeer).mpr ⟨s, hs, howner⟩
    have hsender : ∀ sid sess, closed.session? sid = some sess → sess.sender ≠ p := by
      rintro sid sess hsess rfl
      obtain ⟨hsess, hstays⟩ := hclosing.session?.mp hsess
      obtain ⟨s, hs, howner⟩ := hi.share_of_session hsess
      exact hstays ⟨sess, (session?_eq_some.mp hsess).2, hi.shareLive sid sess hsess,
        howned _ s hs howner⟩
    have hdetached := detached_foldl p (io.order.keysOf (closed.peerSessions p)) closed
    set final := (io.order.keysOf (closed.peerSessions p)).foldl
      (fun h sid => h.detachReceiver p sid) closed
    have hlivePeers : final.livePeers = h.livePeers.erase p :=
      hdetached.livePeers.trans hclosing.livePeers
    refine ⟨hdetached.linked hclosedLinked hsender, fun sid sess hsess => ?_,
      fun sid q sess hsess hreceiver => ?_, fun id s hs => ?_⟩
    · -- shareLive
      have hclosedLive : ∀ sid sess, closed.session? sid = some sess →
          sess.share ∈ closed.liveShares := by
        intro sid sess hsess
        obtain ⟨hsess, hstays⟩ := hclosing.session?.mp hsess
        have hlive := hi.shareLive sid sess hsess
        exact (hclosing.liveShares _).mpr
          ⟨hlive, fun hmem => hstays ⟨sess, (session?_eq_some.mp hsess).2, hlive, hmem⟩⟩
      rw [hdetached.liveShares]
      rw [hdetached.session?] at hsess
      split at hsess
      · obtain ⟨sess₀, hsess₀, rfl⟩ := Option.map_eq_some_iff.mp hsess
        rw [(without_fields p sess₀).1]
        exact hclosedLive sid sess₀ hsess₀
      · exact hclosedLive sid sess hsess
    · -- receiverLive
      rw [hlivePeers, OrderedSet.mem_erase_iff]
      obtain ⟨peer', hpeer'⟩ := mem_peers ((hclosing.mem_peers p).mpr (hi.peersLive p hlive))
      rw [hdetached.session?] at hsess
      split at hsess
      · obtain ⟨sess₀, hsess₀, rfl⟩ := Option.map_eq_some_iff.mp hsess
        have hne : q ≠ p := by
          rintro rfl
          exact receiver_without q sess₀ hreceiver
        rw [receiver_without_iff hne] at hreceiver
        exact ⟨hne, hi.receiverLive sid q sess₀ (hclosing.session?.mp hsess₀).1 hreceiver⟩
      · rename_i hother
        refine ⟨?_, hi.receiverLive sid q sess (hclosing.session?.mp hsess).1 hreceiver⟩
        rintro rfl
        rw [MapOrder.mem_keysOf, mem_peerSessions hpeer',
          hclosedLinked.peerSessions q sid peer' hpeer'] at hother
        exact hother ⟨sess, hsess, .inr hreceiver⟩
    · -- ownerLive
      rw [hdetached.share?] at hs
      obtain ⟨hstays, s₀, hs₀, hminus⟩ := hclosing.of_share? hs
      have howner : s.owner = s₀.owner := by rw [hminus.same]
      rw [hlivePeers, OrderedSet.mem_erase_iff, howner]
      exact ⟨fun heq => hstays (howned id s₀ hs₀ heq), hi.ownerLive id s₀ hs₀⟩

theorem intact_sweep (hi : Intact h.toTables) : Intact (h.sweep io).toTables := by
  have hclosing := closing_foldl (f := fun h id => h.expireShare io id) (Q := Expired io.now)
    closing_expireShare expired_removal (io.order.keysOf h.liveShares) h hi.toLinked
  exact hi.of_closing hclosing

theorem intact_shutdown (hi : Intact h.toTables) : Intact (h.shutdown io).toTables := by
  have hclosing : Closing (· ∈ io.order.keysOf h.liveShares) h.toTables (h.shutdown io).toTables :=
    closing_closeShares .serverClose none _ { h with closed := true } hi.toLinked
  exact hi.of_closing hclosing

/-! ## Steps and runs -/

/-- The random ids of a step are new. -/
theorem of_fresh (hf : h.fresh io = true) : io.peerId ∉ h.peers ∧ io.shareId ∉ h.shares ∧
    io.sessionId ∉ h.sessions ∧ ∀ (sid : Bytes) (sess : Session), h.sessions[sid]? = some sess →
      sess.resumeToken ≠ io.token := by
  unfold fresh at hf
  simp only [Bool.and_eq_true, decide_eq_true_eq, List.all_eq_true, bne_iff_ne] at hf
  obtain ⟨⟨⟨hpeer, hshare⟩, hsession⟩, htokens⟩ := hf
  refine ⟨hpeer, hshare, hsession, fun sid sess hsess => ?_⟩
  exact htokens (sid, sess) (Std.ExtTreeMap.mem_toList_iff_getElem?_eq_some.mpr hsess)

theorem intact_dispatch (hi : Intact h.toTables) (hf : h.fresh io = true) {p : Bytes}
    (hp : p ∈ h.livePeers) (id : Int) (body : Body) :
    Intact (h.dispatch opt io p id body).toTables := by
  obtain ⟨-, hshare, hsession, htoken⟩ := of_fresh hf
  cases body with
  | hello m => exact tables_onHello p id m hi
  | createShare m => exact intact_onCreateShare hi hp hshare id m
  | closeShare m => exact intact_onCloseShare hi p id m
  | claim m => exact intact_onClaim hi hp hsession htoken id m
  | signal m =>
    show Intact (h.onSignal p id m).toTables
    rw [tables_onSignal]
    exact hi
  | leave m => exact intact_onLeave hi p id m
  | ping => exact hi
  | pong => exact hi
  | unknown type => exact hi

theorem intact_handleText (hi : Intact h.toTables) (hf : h.fresh io = true) {p : Bytes}
    (hp : p ∈ h.livePeers) (req : Option Request) :
    Intact (h.handleText opt io p req).toTables := by
  cases req with
  | none => exact hi
  | some req =>
    simp only [handleText]
    split
    · exact hi
    · exact intact_dispatch hi hf hp req.id req.body

/-- The steps that are enabled. -/
theorem of_step {h' : Hub} {a : Action} : step opt h (io, a) = some h' →
    h.crashed = false ∧ h.fresh io = true ∧
    match a with
    | .connect ip => h' = h.connect io ip
    | .text p req => h.idle p = true ∧ h' = h.handleText opt io p req
    | .binary p frame => h.idle p = true ∧ h' = h.handleBinary io p frame
    | .task p => ∃ t rest, h.threads p = t :: rest ∧ h' = (h.next p rest).runTask opt io p t
    | .disconnect p => h.threads p = [] ∧ h' = h.disconnect io p
    | .sweep => h' = h.sweep io
    | .shutdown => h' = h.shutdown io
    | .setNotifications snapshot => h' = h.setNotifications io snapshot := by
  intro hstep
  unfold step at hstep
  split at hstep
  · cases hstep
  · rename_i henabled
    simp only [Bool.or_eq_true, Bool.not_eq_true', not_or, Bool.not_eq_true,
      Bool.not_eq_false] at henabled
    refine ⟨henabled.1, henabled.2, ?_⟩
    cases a with
    | text p req =>
      simp only [Option.ite_none_right_eq_some, Option.some.injEq] at hstep
      exact ⟨hstep.1, hstep.2.symm⟩
    | binary p frame =>
      simp only [Option.ite_none_right_eq_some, Option.some.injEq] at hstep
      exact ⟨hstep.1, hstep.2.symm⟩
    | task p =>
      simp only at hstep
      split at hstep
      · cases hstep
      · rename_i t rest hthread
        exact ⟨t, rest, hthread, (Option.some.inj hstep).symm⟩
    | disconnect p =>
      simp only [Option.ite_none_right_eq_some, Option.some.injEq] at hstep
      exact ⟨hstep.1.2, hstep.2.symm⟩
    | _ => exact (Option.some.inj hstep).symm

theorem intact_step {h' : Hub} {a : Action} (hi : Intact h.toTables)
    (hstep : step opt h (io, a) = some h') : Intact h'.toTables := by
  obtain ⟨-, hf, heffect⟩ := of_step hstep
  cases a with
  | connect ip =>
    simp only at heffect
    subst heffect
    exact hi.connect (of_fresh hf).1 ip
  | text p req =>
    obtain ⟨hidle, rfl⟩ := heffect
    simp only [idle, Bool.and_eq_true, decide_eq_true_eq] at hidle
    exact intact_handleText hi hf hidle.1 req
  | binary p frame =>
    obtain ⟨-, rfl⟩ := heffect
    rw [tables_handleBinary]
    exact hi
  | task p =>
    obtain ⟨t, rest, -, rfl⟩ := heffect
    rw [tables_runTask]
    exact hi
  | disconnect p =>
    obtain ⟨-, rfl⟩ := heffect
    exact intact_disconnect hi p
  | sweep =>
    simp only at heffect
    subst heffect
    exact intact_sweep hi
  | shutdown =>
    simp only at heffect
    subst heffect
    exact intact_shutdown hi
  | setNotifications snapshot =>
    simp only at heffect
    subst heffect
    rw [tables_setNotifications]
    exact hi

theorem intact_empty : Intact {} := by
  constructor
  constructor
  all_goals simp [session?, share?, Registry.consistent_empty]

theorem intact_run {ok : Hub → HubIo × Action → Prop} {as : List (HubIo × Action)}
    (run : (machine opt).Run ok as h) : Intact h.toTables := by
  refine run.invariant (fun h => Intact h.toTables) intact_empty fun h a h' hi _ hstep => ?_
  exact intact_step hi hstep

theorem integrity_run {as : List (HubIo × Action)} (run : (machine opt).Run Machine.anyStep as h) :
    Integrity h.toTables :=
  (intact_run run).integrity

/-- The surroundings of a step in which all random ids end in `n`. -/
def ioAt (n : UInt8) (now : Int) : HubIo where
  now := now
  peerId := [80, n]
  shareId := [83, n]
  sessionId := [88, n]
  token := [84, n]
  codeBytes _ := some fun _ => n
  globalAllows := true
  ipAllows := true
  relayAllows := true
  order := .sorted

def request (n : UInt8) (now : Int) (p : Bytes) (id : Int) (body : Body) : HubIo × Action :=
  (ioAt n now, .text p (some ⟨id, body⟩))

def goesOn (n : UInt8) (p : Bytes) : HubIo × Action := (ioAt n 0, .task p)

/-- Two peers say hello, and the first one creates a share. -/
def shareRun (mode : Bytes) : List (HubIo × Action) :=
  [(ioAt 1 0, .connect []), (ioAt 2 0, .connect []),
    request 3 0 [80, 1] 1 (.hello (.ok { proto := 1 })), request 3 0 [80, 2] 1 (.hello (.ok { proto := 1 })),
    request 4 0 [80, 1] 2 (.createShare (.ok { mode := mode })), goesOn 5 [80, 1]]

/-- The second one claims its code. -/
def claimRun : List (HubIo × Action) :=
  shareRun (ascii "once") ++ [request 6 1 [80, 2] 2 (.claim (.ok { code := ascii "4444444444" }))]

theorem exec_claimRun : ((machine {}).exec claimRun (machine {}).init).map (fun h =>
    (h.liveSessions.toList, h.threads [80, 2])) =
    some ([[88, 6]], [.announce [88, 6] 2 false]) := by
  decide +kernel

theorem integrity_claimed : ∃ h, (machine {}).Run Machine.anyStep claimRun h ∧
    [88, 6] ∈ h.liveSessions ∧ Integrity h.toTables := by
  obtain ⟨h, hexec, heq⟩ := Option.map_eq_some_iff.mp exec_claimRun
  have run := Machine.run_of_exec hexec
  refine ⟨h, run, ?_, integrity_run run⟩
  rw [← Std.ExtTreeSet.mem_toList, (Prod.mk.inj heq).1]
  exact List.mem_singleton_self _

end Hub

end CrossTransfer.Signal
