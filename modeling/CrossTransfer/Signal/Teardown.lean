import CrossTransfer.Signal.Hub

/-! # Teardown

What the hub removes, it removes everywhere: `Removal D S` says that the tables are the same
except that the shares in `D` and the sessions in `S` are gone from every map. `endSessionLocked`
and `closeShareLocked` are removals when the maps agree (`Linked`), removals compose, and the maps
agree after a removal. So the loops that close several shares are removals as well, whatever order
they run in.
-/

namespace CrossTransfer.Signal

open CrossTransfer.Library
open CrossTransfer.Transfer

/-- The share without the sessions in `S`. -/
structure Share.Minus (S : Bytes → Prop) (s s' : Share) : Prop where
  same : s' = { s with sessions := s'.sessions }
  sessions : ∀ sid, sid ∈ s'.sessions ↔ sid ∈ s.sessions ∧ ¬ S sid

/-- The peer without the shares in `D` and the sessions in `S`. -/
structure Peer.Minus (D S : Bytes → Prop) (p p' : Peer) : Prop where
  same : p' = { p with shares := p'.shares, sessions := p'.sessions }
  shares : ∀ id, id ∈ p'.shares ↔ id ∈ p.shares ∧ ¬ D id
  sessions : ∀ sid, sid ∈ p'.sessions ↔ sid ∈ p.sessions ∧ ¬ S sid

namespace Tables

/-- The maps agree with each other about the shares and sessions that there are. -/
structure Linked (t : Tables) : Prop where
  owners : ∀ (id : Bytes) (s : Share), t.shares[id]? = some s → s.owner ∈ t.peers
  senders : ∀ (sid : Bytes) (sess : Session), t.sessions[sid]? = some sess →
    ∃ s, t.shares[sess.share]? = some s ∧ s.owner = sess.sender
  receivers : ∀ (sid p : Bytes) (sess : Session), t.sessions[sid]? = some sess →
    sess.receiver = some p → p ∈ t.peers
  peersLive : ∀ p, p ∈ t.livePeers → p ∈ t.peers
  sharesLive : ∀ id, id ∈ t.liveShares → id ∈ t.shares
  sessionsLive : ∀ sid, sid ∈ t.liveSessions → sid ∈ t.sessions
  shareSessions : ∀ (id sid : Bytes) (s : Share), t.shares[id]? = some s →
    (sid ∈ s.sessions ↔ ∃ sess, t.session? sid = some sess ∧ sess.share = id)
  peerSessions : ∀ (p sid : Bytes) (peer : Peer), t.peers[p]? = some peer →
    (sid ∈ peer.sessions ↔ ∃ sess, t.session? sid = some sess ∧
      (sess.sender = p ∨ sess.receiver = some p))
  tokens : ∀ token sid : Bytes, t.tokens[token]? = some sid ↔
    ∃ sess, t.session? sid = some sess ∧ sess.resumeToken = token
  peerShares : ∀ (p id : Bytes) (peer : Peer), t.peers[p]? = some peer →
    (id ∈ peer.shares ↔ ∃ s, t.share? id = some s ∧ s.owner = p)
  consistent : t.codes.Consistent
  codes : ∀ (id : Bytes) (e : Codes.Entry), t.codes.byId[id]? = some e ↔
    ∃ s, t.share? id = some s ∧ ¬ (s.mode = .once ∧ s.claimed = true) ∧ e = ⟨id, s.code, s.expiresAt⟩

/-- The same tables without the shares in `D` and the sessions in `S`. -/
structure Removal (D S : Bytes → Prop) (t t' : Tables) : Prop where
  sessions : t'.sessions = t.sessions
  livePeers : t'.livePeers = t.livePeers
  liveShares : ∀ id, id ∈ t'.liveShares ↔ id ∈ t.liveShares ∧ ¬ D id
  liveSessions : ∀ sid, sid ∈ t'.liveSessions ↔ sid ∈ t.liveSessions ∧ ¬ S sid
  shares : ∀ id : Bytes, Option.Rel (Share.Minus S) t.shares[id]? t'.shares[id]?
  peers : ∀ p : Bytes, Option.Rel (Peer.Minus D S) t.peers[p]? t'.peers[p]?
  tokens : ∀ token sid : Bytes,
    t'.tokens[token]? = some sid ↔ t.tokens[token]? = some sid ∧ ¬ S sid
  consistent : t.codes.Consistent → t'.codes.Consistent
  codes : ∀ (id : Bytes) (e : Codes.Entry),
    t'.codes.byId[id]? = some e ↔ t.codes.byId[id]? = some e ∧ ¬ D id

variable {t t' : Tables} {D S : Bytes → Prop}

theorem share?_eq_some {id : Bytes} {s : Share} :
    t.share? id = some s ↔ id ∈ t.liveShares ∧ t.shares[id]? = some s := by
  unfold share?
  split <;> simp [*]

theorem session?_eq_some {sid : Bytes} {sess : Session} :
    t.session? sid = some sess ↔ sid ∈ t.liveSessions ∧ t.sessions[sid]? = some sess := by
  unfold session?
  split <;> simp [*]

theorem rel_some {α : Type*} {r : α → α → Prop} {a : Option α} {y : α}
    (h : Option.Rel r a (some y)) : ∃ x, a = some x ∧ r x y := by
  cases h with
  | some hr => exact ⟨_, rfl, hr⟩

theorem rel_isSome {α : Type*} {r : α → α → Prop} {a b : Option α} (h : Option.Rel r a b) :
    a.isSome = b.isSome := by
  cases h <;> rfl

theorem rel_trans {α : Type*} {r r' r'' : α → α → Prop} {a b c : Option α} (h : Option.Rel r a b)
    (h' : Option.Rel r' b c) (hr : ∀ x y z, r x y → r' y z → r'' x z) : Option.Rel r'' a c := by
  cases h with
  | none =>
    cases h'
    exact .none
  | some hxy =>
    cases h' with
    | some hyz => exact .some (hr _ _ _ hxy hyz)

theorem rel_mono {α : Type*} {r r' : α → α → Prop} {a b : Option α} (h : Option.Rel r a b)
    (hr : ∀ x y, a = some x → r x y → r' x y) : Option.Rel r' a b := by
  cases h with
  | none => exact .none
  | some hxy => exact .some (hr _ _ rfl hxy)

/-- Entries that stay, stay as they are. -/
theorem rel_refl {α : Type*} {r : α → α → Prop} (a : Option α) (hr : ∀ x, a = some x → r x x) :
    Option.Rel r a a := by
  cases a with
  | none => exact .none
  | some x => exact .some (hr x rfl)

namespace Removal

theorem session? (h : Removal D S t t') {sid : Bytes} {sess : Session} :
    t'.session? sid = some sess ↔ t.session? sid = some sess ∧ ¬ S sid := by
  rw [session?_eq_some, session?_eq_some, h.liveSessions, h.sessions, and_right_comm]

theorem of_share? (h : Removal D S t t') {id : Bytes} {s' : Share} (hs : t'.share? id = some s') :
    ¬ D id ∧ ∃ s, t.share? id = some s ∧ s.Minus S s' := by
  rw [share?_eq_some, h.liveShares] at hs
  have hrel := h.shares id
  rw [hs.2] at hrel
  obtain ⟨s, hs', hminus⟩ := rel_some hrel
  exact ⟨hs.1.2, s, share?_eq_some.mpr ⟨hs.1.1, hs'⟩, hminus⟩

theorem share? (h : Removal D S t t') {id : Bytes} {s : Share} (hs : t.share? id = some s)
    (hD : ¬ D id) : ∃ s', t'.share? id = some s' ∧ s.Minus S s' := by
  rw [share?_eq_some] at hs
  have hrel := h.shares id
  rw [hs.2] at hrel
  cases hs' : t'.shares[id]? with
  | none =>
    rw [hs'] at hrel
    cases hrel
  | some s' =>
    rw [hs'] at hrel
    exact ⟨s', share?_eq_some.mpr ⟨(h.liveShares id).mpr ⟨hs.1, hD⟩, hs'⟩, Option.rel_some_some.mp hrel⟩

theorem mem_peers (h : Removal D S t t') (p : Bytes) : p ∈ t'.peers ↔ p ∈ t.peers := by
  have := rel_isSome (h.peers p)
  simp only [Std.ExtTreeMap.mem_iff_isSome_getElem?, this]

theorem mem_shares (h : Removal D S t t') (id : Bytes) : id ∈ t'.shares ↔ id ∈ t.shares := by
  have := rel_isSome (h.shares id)
  simp only [Std.ExtTreeMap.mem_iff_isSome_getElem?, this]

theorem refl (t : Tables) : Removal (fun _ => False) (fun _ => False) t t where
  sessions := rfl
  livePeers := rfl
  liveShares := by simp
  liveSessions := by simp
  shares id := rel_refl _ fun s _ => ⟨rfl, by simp⟩
  peers p := rel_refl _ fun peer _ => ⟨rfl, by simp, by simp⟩
  tokens := by simp
  consistent := id
  codes := by simp

theorem trans {D' S' : Bytes → Prop} {a b c : Tables} (h : Removal D S a b) (h' : Removal D' S' b c) :
    Removal (fun id => D id ∨ D' id) (fun sid => S sid ∨ S' sid) a c where
  sessions := h'.sessions.trans h.sessions
  livePeers := h'.livePeers.trans h.livePeers
  liveShares id := by rw [h'.liveShares, h.liveShares, and_assoc, ← not_or]
  liveSessions sid := by rw [h'.liveSessions, h.liveSessions, and_assoc, ← not_or]
  shares id := by
    refine rel_trans (h.shares id) (h'.shares id) fun s s' s'' hminus hminus' => ⟨?_, fun sid => ?_⟩
    · rw [hminus'.same, hminus.same]
    · rw [hminus'.sessions, hminus.sessions, and_assoc, ← not_or]
  peers p := by
    refine rel_trans (h.peers p) (h'.peers p) fun _ _ _ hminus hminus' =>
      ⟨?_, fun id => ?_, fun sid => ?_⟩
    · rw [hminus'.same, hminus.same]
    · rw [hminus'.shares, hminus.shares, and_assoc, ← not_or]
    · rw [hminus'.sessions, hminus.sessions, and_assoc, ← not_or]
  tokens token sid := by rw [h'.tokens, h.tokens, and_assoc, ← not_or]
  consistent ha := h'.consistent (h.consistent ha)
  codes id e := by rw [h'.codes, h.codes, and_assoc, ← not_or]

/-- The maps still agree after a removal. -/
theorem linked (h : Removal D S t t') (ht : Linked t) : Linked t' where
  owners id s' hs' := by
    have hrel := h.shares id
    rw [hs'] at hrel
    obtain ⟨s, hs, hminus⟩ := rel_some hrel
    rw [h.mem_peers, hminus.same]
    exact ht.owners id s hs
  senders sid sess hsess := by
    rw [h.sessions] at hsess
    obtain ⟨s, hs, howner⟩ := ht.senders sid sess hsess
    have hrel := h.shares sess.share
    rw [hs] at hrel
    cases hs' : t'.shares[sess.share]? with
    | none =>
      rw [hs'] at hrel
      cases hrel
    | some s' =>
      rw [hs'] at hrel
      refine ⟨s', rfl, ?_⟩
      rw [(Option.rel_some_some.mp hrel).same]
      exact howner
  receivers sid p sess hsess := by
    rw [h.sessions] at hsess
    rw [h.mem_peers]
    exact ht.receivers sid p sess hsess
  peersLive p := by
    rw [h.livePeers, h.mem_peers]
    exact ht.peersLive p
  sharesLive id hid := by
    rw [h.mem_shares]
    exact ht.sharesLive id ((h.liveShares id).mp hid).1
  sessionsLive sid hsid := by
    rw [h.sessions]
    exact ht.sessionsLive sid ((h.liveSessions sid).mp hsid).1
  -- The index of a share loses exactly the sessions that go.
  shareSessions id sid s' hs' := by
    have hrel := h.shares id
    rw [hs'] at hrel
    obtain ⟨s, hs, hminus⟩ := rel_some hrel
    rw [hminus.sessions, ht.shareSessions id sid s hs]
    simp only [h.session?]
    grind
  peerSessions p sid peer' hpeer' := by
    have hrel := h.peers p
    rw [hpeer'] at hrel
    obtain ⟨peer, hpeer, hminus⟩ := rel_some hrel
    rw [hminus.sessions, ht.peerSessions p sid peer hpeer]
    simp only [h.session?]
    grind
  tokens token sid := by
    rw [h.tokens, ht.tokens]
    simp only [h.session?]
    grind
  peerShares p id peer' hpeer' := by
    have hrel := h.peers p
    rw [hpeer'] at hrel
    obtain ⟨peer, hpeer, hminus⟩ := rel_some hrel
    rw [hminus.shares, ht.peerShares p id peer hpeer]
    constructor
    · rintro ⟨⟨s, hs, howner⟩, hD⟩
      obtain ⟨s', hs', hminus⟩ := h.share? hs hD
      refine ⟨s', hs', ?_⟩
      rw [hminus.same]
      exact howner
    · rintro ⟨s', hs', howner⟩
      obtain ⟨hD, s, hs, hminus⟩ := h.of_share? hs'
      rw [hminus.same] at howner
      exact ⟨⟨s, hs, howner⟩, hD⟩
  consistent := h.consistent ht.consistent
  codes id e := by
    rw [h.codes, ht.codes]
    constructor
    · rintro ⟨⟨s, hs, hopen, rfl⟩, hD⟩
      obtain ⟨s', hs', hminus⟩ := h.share? hs hD
      refine ⟨s', hs', ?_⟩
      rw [hminus.same]
      exact ⟨hopen, rfl⟩
    · rintro ⟨s', hs', hopen, rfl⟩
      obtain ⟨hD, s, hs, hminus⟩ := h.of_share? hs'
      rw [hminus.same] at hopen
      refine ⟨⟨s, hs, hopen, ?_⟩, hD⟩
      rw [hminus.same]

/-- It only matters which of the shares and sessions that there are go. -/
theorem congr {D' S' : Bytes → Prop} (h : Removal D S t t') (ht : Linked t)
    (hD : ∀ id s, t.share? id = some s → (D id ↔ D' id))
    (hS : ∀ sid sess, t.session? sid = some sess → (S sid ↔ S' sid)) : Removal D' S' t t' where
  sessions := h.sessions
  livePeers := h.livePeers
  liveShares id := by
    rw [h.liveShares]
    refine and_congr_right fun hlive => not_congr ?_
    obtain ⟨s, hs⟩ := Option.isSome_iff_exists.mp
      (Std.ExtTreeMap.mem_iff_isSome_getElem?.mp (ht.sharesLive id hlive))
    exact hD id s (share?_eq_some.mpr ⟨hlive, hs⟩)
  liveSessions sid := by
    rw [h.liveSessions]
    refine and_congr_right fun hlive => not_congr ?_
    obtain ⟨sess, hsess⟩ := Option.isSome_iff_exists.mp
      (Std.ExtTreeMap.mem_iff_isSome_getElem?.mp (ht.sessionsLive sid hlive))
    exact hS sid sess (session?_eq_some.mpr ⟨hlive, hsess⟩)
  shares id := by
    refine rel_mono (h.shares id) fun s s' hs hminus => ⟨hminus.same, fun sid => ?_⟩
    rw [hminus.sessions]
    refine and_congr_right fun hmem => not_congr ?_
    obtain ⟨sess, hsess, -⟩ := (ht.shareSessions id sid s hs).mp hmem
    exact hS sid sess hsess
  peers p := by
    refine rel_mono (h.peers p) fun peer peer' hpeer hminus =>
      ⟨hminus.same, fun id => ?_, fun sid => ?_⟩
    · rw [hminus.shares]
      refine and_congr_right fun hmem => not_congr ?_
      obtain ⟨s, hs, -⟩ := (ht.peerShares p id peer hpeer).mp hmem
      exact hD id s hs
    · rw [hminus.sessions]
      refine and_congr_right fun hmem => not_congr ?_
      obtain ⟨sess, hsess, -⟩ := (ht.peerSessions p sid peer hpeer).mp hmem
      exact hS sid sess hsess
  tokens token sid := by
    rw [h.tokens]
    refine and_congr_right fun htoken => not_congr ?_
    obtain ⟨sess, hsess, -⟩ := (ht.tokens token sid).mp htoken
    exact hS sid sess hsess
  consistent := h.consistent
  codes id e := by
    rw [h.codes]
    refine and_congr_right fun hentry => not_congr ?_
    obtain ⟨s, hs, -⟩ := (ht.codes id e).mp hentry
    exact hD id s hs

end Removal

/-- The sessions of the shares in `D`. -/
def sessionsOf (t : Tables) (D : Bytes → Prop) (sid : Bytes) : Prop :=
  ∃ sess, t.sessions[sid]? = some sess ∧ sess.share ∈ t.liveShares ∧ D sess.share

/-- The shares in `D` are closed: they and their sessions are gone. -/
def Closing (D : Bytes → Prop) (t t' : Tables) : Prop := Removal D (t.sessionsOf D) t t'

theorem Closing.trans {D' : Bytes → Prop} {a b c : Tables} (ha : Linked a) (h : Closing D a b)
    (h' : Closing D' b c) : Closing (fun id => D id ∨ D' id) a c := by
  refine (Removal.trans h h').congr ha (fun _ _ _ => .rfl) fun sid _ _ => ?_
  unfold sessionsOf
  rw [h.sessions]
  simp only [h.liveShares]
  grind

theorem Closing.linked (h : Closing D t t') (ht : Linked t) : Linked t' := Removal.linked h ht

end Tables

namespace Hub

open Tables

variable {io : HubIo} {h : Hub}

@[simp] theorem toTables_send (h : Hub) (p : Bytes) (m : Message) :
    (h.send p m).toTables = h.toTables := rfl

@[simp] theorem toTables_next (h : Hub) (p : Bytes) (tasks : List Task) :
    (h.next p tasks).toTables = h.toTables := rfl

theorem toTables_endFor (h : Hub) (sid : Bytes) (reason : Reason) (initiator : Option Bytes)
    (p : Bytes) : (h.endFor sid reason initiator p).toTables =
      { h.toTables with peers := h.peers.modify p (·.dropSession sid) } := by
  unfold endFor
  simp only
  split <;> rfl

/-- Telling the parties of a session takes it from their maps. -/
theorem endFor_foldl (parties : List Bytes) (sid : Bytes) (reason : Reason)
    (initiator : Option Bytes) (h : Hub) :
    ∃ peers, (parties.foldl (fun h p => h.endFor sid reason initiator p) h).toTables =
        { h.toTables with peers := peers } ∧
      ∀ p : Bytes, Option.Rel (Peer.Minus (fun _ => False) fun sid' => p ∈ parties ∧ sid' = sid)
        h.peers[p]? peers[p]? := by
  induction parties generalizing h with
  | nil => exact ⟨h.peers, rfl, fun p => rel_refl _ fun peer _ => ⟨rfl, by simp, by simp⟩⟩
  | cons first parties ih =>
    obtain ⟨peers, htables, hpeers⟩ := ih (h.endFor sid reason initiator first)
    have hfirst := toTables_endFor h sid reason initiator first
    refine ⟨peers, ?_, fun p => ?_⟩
    · rw [List.foldl_cons, htables, hfirst]
    · have hstep : Option.Rel (Peer.Minus (fun _ => False) fun sid' => p = first ∧ sid' = sid)
          h.peers[p]? (h.endFor sid reason initiator first).peers[p]? := by
        rw [hfirst]
        simp only [OrderedMap.get_modify]
        cases h.peers[p]? with
        | none => split <;> exact .none
        | some peer =>
          split
          · rename_i heq
            refine .some ⟨rfl, fun id => ?_, fun sid' => ?_⟩
            · simp [Peer.dropSession]
            · rw [Peer.mem_dropSession, and_iff_right heq]
          · rename_i hne
            exact .some ⟨rfl, by simp, by simp [hne]⟩
      refine rel_trans hstep (hpeers p) fun peer peer' peer'' hminus hminus' =>
        ⟨?_, fun id => ?_, fun sid' => ?_⟩
      · rw [hminus'.same, hminus.same]
      · rw [hminus'.shares, hminus.shares, and_assoc, ← not_or, or_false]
      · rw [hminus'.sessions, hminus.sessions, and_assoc, ← not_or, ← or_and_right, List.mem_cons]

theorem removal_endSession (ht : Linked h.toTables) (sid : Bytes) (reason : Reason)
    (initiator : Option Bytes) :
    Removal (fun _ => False) (· = sid) h.toTables
      (h.endSessionLocked sid reason initiator).toTables := by
  unfold endSessionLocked
  cases hsess : h.session? sid with
  | none =>
    refine (Removal.refl _).congr ht (fun _ _ _ => .rfl) fun sid' sess hsess' => ?_
    refine iff_of_false id ?_
    rintro rfl
    rw [hsess] at hsess'
    cases hsess'
  | some sess =>
    simp only
    set cleared : Hub := { h with
      liveSessions := h.liveSessions.erase sid
      tokens := h.tokens.erase sess.resumeToken
      shares := h.shares.modify sess.share (·.dropSession sid) } with hcleared
    -- The ends of the session are told one after the other, and lose it.
    obtain ⟨peers, htables, hpeers⟩ :=
      endFor_foldl (sess.sender :: sess.receiver.toList) sid reason initiator cleared
    rw [htables]
    refine ⟨rfl, rfl, by simp [cleared], fun sid' => ?_, fun id => ?_, fun p => ?_,
      fun token sid' => ?_, id, by simp [cleared]⟩
    · rw [OrderedSet.mem_erase_iff, and_comm]
    · simp only [cleared, OrderedMap.get_modify]
      cases hs : h.shares[id]? with
      | none => split <;> exact .none
      | some s =>
        split
        · exact .some ⟨rfl, fun sid' => Share.mem_dropSession ..⟩
        · rename_i hne
          refine .some ⟨rfl, fun sid' => (and_iff_left_of_imp fun hmem => ?_).symm⟩
          obtain ⟨sess', hsess', hshare⟩ := (ht.shareSessions id sid' s hs).mp hmem
          rintro rfl
          obtain rfl := Option.some.inj (hsess.symm.trans hsess')
          exact hne hshare.symm
    · refine rel_mono (hpeers p) fun peer peer' hpeer hminus => ?_
      refine ⟨hminus.same, fun id => by simp [hminus.shares], fun sid' => ?_⟩
      rw [hminus.sessions]
      -- A peer that has the session is one of its ends.
      refine and_congr_right fun hmem => not_congr (and_iff_right_of_imp fun heq => ?_)
      subst heq
      obtain ⟨sess', hsess', hparty⟩ := (ht.peerSessions p sid' peer hpeer).mp hmem
      obtain rfl := Option.some.inj (hsess.symm.trans hsess')
      obtain rfl | hreceiver := hparty
      · simp
      · simp [hreceiver]
    · simp only [cleared, OrderedMap.get_erase]
      split
      · rename_i heq
        refine ⟨fun hnone => absurd hnone.symm (Option.some_ne_none sid'), fun hother => absurd ?_ hother.2⟩
        have hmine := (ht.tokens token sid).mpr ⟨sess, hsess, heq.symm⟩
        exact Option.some.inj (hother.1.symm.trans hmine)
      · rename_i hne
        refine (and_iff_left_of_imp fun htoken => ?_).symm
        rintro rfl
        obtain ⟨sess', hsess', htoken'⟩ := (ht.tokens token sid').mp htoken
        obtain rfl := Option.some.inj (hsess.symm.trans hsess')
        exact hne htoken'.symm

theorem removal_endSessions (reason : Reason) (initiator : Option Bytes) (sids : List Bytes)
    (h : Hub) (ht : Linked h.toTables) :
    Removal (fun _ => False) (· ∈ sids) h.toTables
      (sids.foldl (fun h sid => h.endSessionLocked sid reason initiator) h).toTables := by
  induction sids generalizing h with
  | nil => exact (Removal.refl _).congr ht (fun _ _ _ => .rfl) fun _ _ _ => by simp
  | cons sid sids ih =>
    have hfirst := removal_endSession ht sid reason initiator
    have hrest := ih _ (hfirst.linked ht)
    refine (hfirst.trans hrest).congr ht (fun _ _ _ => by simp) fun _ _ _ => ?_
    rw [List.mem_cons]

/-- `closeShareLocked` removes the share and its sessions. -/
theorem closing_closeShare (ht : Linked h.toTables) (id : Bytes) (reason : Reason)
    (initiator : Option Bytes) :
    Closing (· = id) h.toTables (h.closeShareLocked io id reason initiator).toTables := by
  unfold closeShareLocked
  cases hs : h.share? id with
  | none =>
    have hdead : ∀ s, h.share? id ≠ some s := fun s h => by rw [hs] at h; cases h
    refine (Removal.refl _).congr ht (fun id' s hs' => iff_of_false not_false ?_)
      fun sid sess hsess => iff_of_false not_false ?_
    · rintro rfl
      exact hdead s hs'
    · rintro ⟨sess, -, hlive, rfl⟩
      obtain ⟨s, hs⟩ := Option.isSome_iff_exists.mp
        (Std.ExtTreeMap.mem_iff_isSome_getElem?.mp (ht.sharesLive _ hlive))
      exact hdead s (share?_eq_some.mpr ⟨hlive, hs⟩)
  | some s =>
    simp only
    set unlisted : Hub := { h with
      liveShares := h.liveShares.erase id
      codes := h.codes.remove id
      peers := h.peers.modify s.owner (·.dropShare id) } with hunlisted
    have hunlist : Removal (· = id) (fun _ => False) h.toTables unlisted.toTables := by
      refine ⟨rfl, rfl, fun id' => ?_, by simp [unlisted], fun id' => ?_, fun p => ?_,
        by simp [unlisted], fun hc => hc.remove id, fun id' e => ?_⟩
      · rw [OrderedSet.mem_erase_iff, and_comm]
      · exact rel_refl _ fun s _ => ⟨rfl, by simp⟩
      · simp only [unlisted, OrderedMap.get_modify]
        cases hpeer : h.peers[p]? with
        | none => split <;> exact .none
        | some peer =>
          split
          · exact .some ⟨rfl, fun id' => Peer.mem_dropShare .., by simp [Peer.dropShare]⟩
          · rename_i hne
            refine .some ⟨rfl, fun id' => (and_iff_left_of_imp fun hmem => ?_).symm, by simp⟩
            obtain ⟨s', hs', howner⟩ := (ht.peerShares p id' peer hpeer).mp hmem
            rintro rfl
            obtain rfl := Option.some.inj (hs.symm.trans hs')
            exact hne howner.symm
      · simp only [unlisted, Registry.get_remove]
        split
        · rename_i heq
          simp [heq]
        · rename_i hne
          simp [hne]
    have hended := removal_endSessions reason initiator (io.order.keysOf s.sessions) unlisted
      (hunlist.linked ht)
    suffices hclosed : Closing (· = id) h.toTables ((io.order.keysOf s.sessions).foldl
        (fun h sid => h.endSessionLocked sid reason initiator) unlisted).toTables by
      split
      · exact hclosed
      · exact hclosed
    refine (hunlist.trans hended).congr ht (fun _ _ _ => by simp) fun sid sess hsess => ?_
    · -- The share's own set lists its sessions.
      rw [share?_eq_some] at hs
      rw [false_or, MapOrder.mem_keysOf, ht.shareSessions id sid s hs.2]
      unfold sessionsOf
      constructor
      · rintro ⟨sess, hsess, rfl⟩
        exact ⟨sess, (session?_eq_some.mp hsess).2, hs.1, rfl⟩
      · rintro ⟨sess', hsess', -, hshare⟩
        refine ⟨sess, hsess, ?_⟩
        rw [(session?_eq_some.mp hsess).2] at hsess'
        obtain rfl := Option.some.inj hsess'
        exact hshare

/-- A loop whose body closes the share it meets if `Q` holds of it. -/
theorem closing_foldl {f : Hub → Bytes → Hub} {Q : Tables → Bytes → Prop}
    (hf : ∀ h id, Linked h.toTables →
      Closing (fun id' => id' = id ∧ Q h.toTables id') h.toTables (f h id).toTables)
    (hQ : ∀ {D S t t'}, Removal D S t t' → ∀ id, Q t' id ↔ Q t id) (ids : List Bytes) (h : Hub)
    (ht : Linked h.toTables) :
    Closing (fun id => id ∈ ids ∧ Q h.toTables id) h.toTables (ids.foldl f h).toTables := by
  induction ids generalizing h with
  | nil =>
    refine (Removal.refl _).congr ht (fun _ _ _ => by simp) fun _ _ _ => ?_
    simp [sessionsOf]
  | cons id ids ih =>
    have hfirst := hf h id ht
    have hall := hfirst.trans ht (ih _ (hfirst.linked ht))
    have hset : (fun id' => (id' = id ∧ Q h.toTables id') ∨ id' ∈ ids ∧ Q (f h id).toTables id') =
        fun id' => id' ∈ id :: ids ∧ Q h.toTables id' := by
      funext id'
      rw [hQ hfirst, ← or_and_right, List.mem_cons]
    rw [hset] at hall
    exact hall

/-- A share whose time has passed. -/
def Expired (now : Int) (t : Tables) (id : Bytes) : Prop :=
  ∃ s, t.shares[id]? = some s ∧ s.expiresAt ≤ now

theorem expired_removal {now : Int} {D S : Bytes → Prop} {t t' : Tables} (hr : Removal D S t t')
    (id : Bytes) : Expired now t' id ↔ Expired now t id := by
  unfold Expired
  have hrel := hr.shares id
  constructor
  · rintro ⟨s', hs', hexpired⟩
    rw [hs'] at hrel
    obtain ⟨s, hs, hminus⟩ := rel_some hrel
    rw [hminus.same] at hexpired
    exact ⟨s, hs, hexpired⟩
  · rintro ⟨s, hs, hexpired⟩
    cases hs' : t'.shares[id]? with
    | none =>
      rw [hs, hs'] at hrel
      cases hrel
    | some s' =>
      rw [hs, hs'] at hrel
      refine ⟨s', rfl, ?_⟩
      rw [(Option.rel_some_some.mp hrel).same]
      exact hexpired

theorem closing_expireShare (h : Hub) (id : Bytes) (ht : Linked h.toTables) :
    Closing (fun id' => id' = id ∧ Expired io.now h.toTables id') h.toTables
      (h.expireShare io id).toTables := by
  have hidle : (∀ s, h.share? id = some s → io.now < s.expiresAt) →
      Closing (fun id' => id' = id ∧ Expired io.now h.toTables id') h.toTables h.toTables := by
    intro hlater
    have hopen : ∀ id', id' ∈ h.liveShares → ¬ (id' = id ∧ Expired io.now h.toTables id') := by
      rintro _ hlive ⟨rfl, s, hs, hexpired⟩
      have := hlater s (share?_eq_some.mpr ⟨hlive, hs⟩)
      omega
    refine (Removal.refl _).congr ht (fun id' s hs => iff_of_false not_false ?_)
      fun sid sess hsess => iff_of_false not_false ?_
    · exact hopen id' (share?_eq_some.mp hs).1
    · rintro ⟨sess, -, hlive, hexpired⟩
      exact hopen _ hlive hexpired
  unfold expireShare
  cases hs : h.share? id with
  | none => exact hidle fun s hs' => by rw [hs] at hs'; cases hs'
  | some s =>
    simp only
    split
    · rename_i hlater
      refine hidle fun s' hs' => ?_
      obtain rfl := Option.some.inj (hs.symm.trans hs')
      exact hlater
    · rename_i hexpired
      have hset : (fun id' => id' = id ∧ Expired io.now h.toTables id') = (· = id) := by
        funext id'
        refine propext (and_iff_left_of_imp ?_)
        rintro rfl
        exact ⟨s, (share?_eq_some.mp hs).2, by omega⟩
      rw [hset]
      exact closing_closeShare ht id _ _

/-! ## Receivers that go offline -/

/-- The session without the receiver `p`. -/
def without (p : Bytes) (sess : Session) : Session :=
  if sess.receiver = some p then { sess with receiver := none } else sess

@[simp] theorem without_without (p : Bytes) (sess : Session) :
    without p (without p sess) = without p sess := by
  unfold without
  split <;> rfl

theorem without_fields (p : Bytes) (sess : Session) :
    (without p sess).share = sess.share ∧ (without p sess).sender = sess.sender ∧
      (without p sess).resumeToken = sess.resumeToken := by
  unfold without
  split <;> exact ⟨rfl, rfl, rfl⟩

theorem receiver_without (p : Bytes) (sess : Session) : (without p sess).receiver ≠ some p := by
  unfold without
  split
  · exact (Option.some_ne_none p).symm
  · assumption

/-- A receiver other than `p` stays. -/
theorem receiver_without_iff {p q : Bytes} (hne : q ≠ p) (sess : Session) :
    (without p sess).receiver = some q ↔ sess.receiver = some q := by
  unfold without
  split
  · rename_i heq
    simp [heq, hne.symm]
  · rfl

/-- The sessions in `sids` have lost the receiver `p`. -/
structure Detached (p : Bytes) (sids : List Bytes) (t t' : Tables) : Prop where
  shares : t'.shares = t.shares
  livePeers : t'.livePeers = t.livePeers
  liveShares : t'.liveShares = t.liveShares
  liveSessions : t'.liveSessions = t.liveSessions
  tokens : t'.tokens = t.tokens
  codes : t'.codes = t.codes
  sessions : ∀ sid : Bytes, t'.sessions[sid]? =
    if sid ∈ sids then (t.sessions[sid]?).map (without p) else t.sessions[sid]?
  peers : ∀ q : Bytes, Option.Rel (Peer.Minus (fun _ => False) fun sid =>
    q = p ∧ sid ∈ sids ∧ ∃ sess, t.sessions[sid]? = some sess ∧ sess.receiver = some p)
    t.peers[q]? t'.peers[q]?

theorem Detached.mem_sessions {p : Bytes} {sids : List Bytes} {t t' : Tables}
    (hd : Detached p sids t t') (sid : Bytes) : sid ∈ t'.sessions ↔ sid ∈ t.sessions := by
  simp only [Std.ExtTreeMap.mem_iff_isSome_getElem?, hd.sessions]
  split <;> simp

theorem Detached.mem_peers {p : Bytes} {sids : List Bytes} {t t' : Tables}
    (hd : Detached p sids t t') (q : Bytes) : q ∈ t'.peers ↔ q ∈ t.peers := by
  simp only [Std.ExtTreeMap.mem_iff_isSome_getElem?, rel_isSome (hd.peers q)]

/-- Every session is an earlier one, perhaps without the receiver. -/
theorem Detached.of_session {p : Bytes} {sids : List Bytes} {t t' : Tables}
    (hd : Detached p sids t t') {sid : Bytes} {sess' : Session} (h : t'.sessions[sid]? = some sess') :
    ∃ sess, t.sessions[sid]? = some sess ∧ (sess' = sess ∨ sid ∈ sids ∧ sess' = without p sess) := by
  rw [hd.sessions] at h
  split at h
  · rename_i hmem
    obtain ⟨sess, hsess, rfl⟩ := Option.map_eq_some_iff.mp h
    exact ⟨sess, hsess, .inr ⟨hmem, rfl⟩⟩
  · exact ⟨sess', h, .inl rfl⟩

theorem Detached.session? {p : Bytes} {sids : List Bytes} {t t' : Tables} (hd : Detached p sids t t')
    (sid : Bytes) : t'.session? sid =
      if sid ∈ sids then (t.session? sid).map (without p) else t.session? sid := by
  unfold Tables.session?
  rw [hd.liveSessions, hd.sessions]
  split
  · rfl
  · split <;> rfl

theorem Detached.share? {p : Bytes} {sids : List Bytes} {t t' : Tables} (hd : Detached p sids t t')
    (id : Bytes) : t'.share? id = t.share? id := by
  unfold Tables.share?
  rw [hd.liveShares, hd.shares]

/-- What is told of a session without looking at its receiver. -/
theorem Detached.exists_session {p : Bytes} {sids : List Bytes} {t t' : Tables}
    (hd : Detached p sids t t') (sid : Bytes) (P : Session → Prop)
    (hP : ∀ sess, P (without p sess) ↔ P sess) :
    (∃ sess, t'.session? sid = some sess ∧ P sess) ↔ ∃ sess, t.session? sid = some sess ∧ P sess := by
  rw [hd.session?]
  split
  · cases t.session? sid with
    | none => simp
    | some sess => simp [hP]
  · rfl

/-- The maps still agree, if `p` sends in no session. -/
theorem Detached.linked {p : Bytes} {sids : List Bytes} {t t' : Tables} (hd : Detached p sids t t')
    (ht : Linked t) (hsender : ∀ sid sess, t.session? sid = some sess → sess.sender ≠ p) :
    Linked t' where
  owners id s hs := by
    rw [hd.shares] at hs
    rw [hd.mem_peers]
    exact ht.owners id s hs
  senders sid sess' hsess' := by
    obtain ⟨sess, hsess, hsame⟩ := hd.of_session hsess'
    obtain ⟨hshare, hsend, -⟩ := without_fields p sess
    rw [hd.shares]
    obtain rfl | ⟨-, rfl⟩ := hsame
    · exact ht.senders sid sess' hsess
    · rw [hshare, hsend]
      exact ht.senders sid sess hsess
  receivers sid q sess' hsess' hreceiver := by
    obtain ⟨sess, hsess, hsame⟩ := hd.of_session hsess'
    rw [hd.mem_peers]
    obtain rfl | ⟨-, rfl⟩ := hsame
    · exact ht.receivers sid q sess' hsess hreceiver
    · have hne : q ≠ p := by
        rintro rfl
        exact receiver_without q sess hreceiver
      exact ht.receivers sid q sess hsess ((receiver_without_iff hne sess).mp hreceiver)
  peersLive q := by
    rw [hd.livePeers, hd.mem_peers]
    exact ht.peersLive q
  sharesLive id := by
    rw [hd.liveShares, hd.shares]
    exact ht.sharesLive id
  sessionsLive sid := by
    rw [hd.liveSessions, hd.mem_sessions]
    exact ht.sessionsLive sid
  shareSessions id sid s hs := by
    rw [hd.shares] at hs
    rw [ht.shareSessions id sid s hs]
    exact (hd.exists_session sid _ fun sess => by rw [(without_fields p sess).1]).symm
  peerSessions q sid peer' hpeer' := by
    have hrel := hd.peers q
    rw [hpeer'] at hrel
    obtain ⟨peer, hpeer, hminus⟩ := rel_some hrel
    rw [hminus.sessions, ht.peerSessions q sid peer hpeer, hd.session?]
    -- The receiver that goes loses the sessions; with any other peer nothing changes.
    by_cases hq : q = p
    · subst hq
      constructor
      · rintro ⟨⟨sess, hsess, hparty⟩, hstays⟩
        have hreceiver := hparty.resolve_left (hsender sid sess hsess)
        rw [if_neg]
        · exact ⟨sess, hsess, hparty⟩
        · exact fun hmem => hstays ⟨rfl, hmem, sess, (session?_eq_some.mp hsess).2, hreceiver⟩
      · split
        · rintro ⟨sess', hsess', hparty⟩
          obtain ⟨sess, hsess, rfl⟩ := Option.map_eq_some_iff.mp hsess'
          rw [(without_fields q sess).2.1] at hparty
          exact absurd (hparty.resolve_left (hsender sid sess hsess)) (receiver_without q sess)
        · rename_i hmem
          exact fun hparty => ⟨hparty, fun hgone => hmem hgone.2.1⟩
    · rw [and_iff_left fun hgone => hq hgone.1, ← hd.session?]
      refine (hd.exists_session sid _ fun sess => ?_).symm
      rw [(without_fields p sess).2.1, receiver_without_iff hq]
  tokens token sid := by
    rw [hd.tokens, ht.tokens]
    exact (hd.exists_session sid _ fun sess => by rw [(without_fields p sess).2.2]).symm
  peerShares q id peer' hpeer' := by
    have hrel := hd.peers q
    rw [hpeer'] at hrel
    obtain ⟨peer, hpeer, hminus⟩ := rel_some hrel
    rw [hminus.shares, not_false_iff, and_true, ht.peerShares q id peer hpeer, hd.share?]
  consistent := by
    rw [hd.codes]
    exact ht.consistent
  codes id e := by
    rw [hd.codes, ht.codes, hd.share?]

theorem detached_detachReceiver (h : Hub) (p sid : Bytes) :
    Detached p [sid] h.toTables (h.detachReceiver p sid).toTables := by
  unfold detachReceiver
  have hidle : (∀ sess, h.sessions[sid]? = some sess → sess.receiver ≠ some p) →
      Detached p [sid] h.toTables h.toTables := by
    intro hother
    refine ⟨rfl, rfl, rfl, rfl, rfl, rfl, fun sid' => ?_, fun q => ?_⟩
    · split
      · rename_i hmem
        obtain rfl := List.mem_singleton.mp hmem
        cases hsess : h.sessions[sid']? with
        | none => rfl
        | some sess =>
          rw [Option.map_some, without, if_neg (hother sess hsess)]
      · rfl
    · refine rel_refl _ fun peer _ => ⟨rfl, by simp, fun sid' => ?_⟩
      refine (and_iff_left_of_imp fun _ => ?_).symm
      rintro ⟨-, hmem, sess, hsess, hreceiver⟩
      rw [List.mem_singleton] at hmem
      subst hmem
      exact hother sess hsess hreceiver
  cases hsess : h.sessions[sid]? with
  | none => exact hidle fun sess hsess' => by rw [hsess] at hsess'; cases hsess'
  | some sess =>
    simp only
    split
    · rename_i hreceiver
      refine ⟨rfl, rfl, rfl, rfl, rfl, rfl, fun sid' => ?_, fun q => ?_⟩
      · simp only [toTables_send, OrderedMap.get_insert, List.mem_singleton]
        split
        · rename_i heq
          rw [heq, hsess, Option.map_some, without, if_pos hreceiver]
        · rfl
      · simp only [toTables_send, OrderedMap.get_modify, List.mem_singleton]
        cases h.peers[q]? with
        | none => split <;> exact .none
        | some peer =>
          split
          · rename_i heq
            refine .some ⟨rfl, by simp [Peer.dropSession], fun sid' => ?_⟩
            rw [Peer.mem_dropSession]
            refine and_congr_right fun _ => not_congr ⟨?_, fun hgone => hgone.2.1⟩
            rintro rfl
            exact ⟨heq, rfl, sess, hsess, hreceiver⟩
          · rename_i hne
            exact .some ⟨rfl, by simp, by simp [hne]⟩
    · rename_i hother
      refine hidle fun sess' hsess' => ?_
      obtain rfl := Option.some.inj (hsess.symm.trans hsess')
      exact hother

theorem detached_foldl (p : Bytes) (sids : List Bytes) (h : Hub) :
    Detached p sids h.toTables (sids.foldl (fun h sid => h.detachReceiver p sid) h).toTables := by
  induction sids generalizing h with
  | nil =>
    exact ⟨rfl, rfl, rfl, rfl, rfl, rfl, fun sid => by simp,
      fun q => rel_refl _ fun peer _ => ⟨rfl, by simp, by simp⟩⟩
  | cons first sids ih =>
    have hfirst := detached_detachReceiver h p first
    have hrest := ih (h.detachReceiver p first)
    refine ⟨hrest.shares.trans hfirst.shares, hrest.livePeers.trans hfirst.livePeers,
      hrest.liveShares.trans hfirst.liveShares, hrest.liveSessions.trans hfirst.liveSessions,
      hrest.tokens.trans hfirst.tokens, hrest.codes.trans hfirst.codes, fun sid => ?_, fun q => ?_⟩
    · rw [List.foldl_cons, hrest.sessions, hfirst.sessions]
      by_cases hmem : sid ∈ sids
      · by_cases heq : sid = first
        · simp [heq, Function.comp_def]
        · simp [hmem, heq]
      · simp [hmem]
    · refine rel_trans (hfirst.peers q) (hrest.peers q) fun peer peer' peer'' hminus hminus' =>
        ⟨?_, fun id => ?_, fun sid => ?_⟩
      · rw [hminus'.same, hminus.same]
      · rw [hminus'.shares, hminus.shares, and_assoc, ← not_or, or_false]
      · rw [hminus'.sessions, hminus.sessions, and_assoc, ← not_or, hfirst.sessions]
        refine and_congr_right fun _ => not_congr ?_
        by_cases heq : sid = first
        · simp [heq, receiver_without]
        · simp [heq]

end Hub

end CrossTransfer.Signal
