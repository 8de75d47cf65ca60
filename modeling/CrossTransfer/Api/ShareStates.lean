import CrossTransfer.Api.SessionSteps
import CrossTransfer.Api.ShareRequests

/-! # Shares that are over

A share that is `completed`, `closed` or `failed` should stay so, and no transfer should be started
from its files. The state is written by five handlers. `Attached` is why most of them leave such a
share alone: a sending session that has not ended is listed by its share, so closing the share
ends it, and a share that is over (or not yet created) has no session that could report an end.

Three things break this: a sender session that starts for a share that is over but still lists the
session id, a `once` share that completes while another of its sessions runs, and a share that
gets the local id of another one.
-/

namespace CrossTransfer.Api

open CrossTransfer.Library
open CrossTransfer.Transfer
open CrossTransfer.Share (TransferState)

/-- The states in which a share has no running session. -/
def ShareState.still (s : ShareState) : Bool := s.terminal || s == .creating

namespace Core

structure Attached (c : Core) : Prop where
  listed : ∀ (sid : Bytes) (t : Running), c.transfers[sid]? = some t → t.session.isSender = true →
    t.session.state.terminal = false →
    ∃ s, c.shares[t.shareLocalId]? = some s ∧ sid ∈ s.sessions
  known : ∀ (sid : Bytes) (t : Running), c.transfers[sid]? = some t → t.session.isSender = true →
    ∃ s, c.shares[t.shareLocalId]? = some s
  ended : ∀ (sid : Bytes) (t : Running) (s : Share), c.transfers[sid]? = some t →
    t.session.isSender = true → c.shares[t.shareLocalId]? = some s → s.state.still = true →
    t.session.state.terminal = true
  owners : ∀ (sid : Bytes) (t : Running), c.transfers[sid]? = some t →
    t.session.owner < c.nextOwner

/-- The shares that are over stay as they are, and get no new sending session. -/
structure Absorbs (c c' : Core) : Prop where
  states : ∀ (id : Bytes) (s : Share), c.shares[id]? = some s → s.state.terminal = true →
    ∃ s', c'.shares[id]? = some s' ∧ s'.state = s.state
  transfers : ∀ (id : Bytes) (s : Share), c.shares[id]? = some s → s.state.terminal = true →
    ∀ (sid : Bytes) (t' : Running), c'.transfers[sid]? = some t' → t'.session.isSender = true →
      t'.shareLocalId = id → ∃ t, c.transfers[sid]? = some t ∧ t.session.isSender = true ∧
        t.shareLocalId = id ∧ t.session.owner = t'.session.owner

theorem Absorbs.trans {a b c : Core} (h : Absorbs a b) (h' : Absorbs b c) : Absorbs a c where
  states id s hs hterminal := by
    obtain ⟨s', hs', heq'⟩ := h.states id s hs hterminal
    obtain ⟨s'', hs'', heq''⟩ := h'.states id s' hs' (by rw [heq']; exact hterminal)
    exact ⟨s'', hs'', heq''.trans heq'⟩
  transfers id s hs hterminal sid t'' ht'' hsender hid := by
    obtain ⟨s', hs', heq'⟩ := h.states id s hs hterminal
    obtain ⟨t', ht', hsender', hid', howner'⟩ :=
      h'.transfers id s' hs' (by rw [heq']; exact hterminal) sid t'' ht'' hsender hid
    obtain ⟨t, ht, hsender, hid, howner⟩ := h.transfers id s hs hterminal sid t' ht' hsender' hid'
    exact ⟨t, ht, hsender, hid, howner.trans howner'⟩

/-- A step that keeps the sessions attached and absorbs. -/
structure Guarded (c c' : Core) : Prop where
  attached : Attached c → Attached c'
  absorbs : Attached c → Absorbs c c'

theorem Guarded.trans {a b c : Core} (h : Guarded a b) (h' : Guarded b c) : Guarded a c where
  attached ha := h'.attached (h.attached ha)
  absorbs ha := (h.absorbs ha).trans (h'.absorbs (h.attached ha))

/-- Every session is an earlier one, and one that has ended stays so. -/
def TransfersKept (c c' : Core) : Prop :=
  ∀ (sid : Bytes) (t' : Running), c'.transfers[sid]? = some t' → ∃ t, c.transfers[sid]? = some t ∧
    t'.session.isSender = t.session.isSender ∧ t'.shareLocalId = t.shareLocalId ∧
    t'.session.owner = t.session.owner ∧
    (t.session.state.terminal = true → t'.session.state.terminal = true)

/-! ## State changes of sessions -/

theorem still_of_terminal {s : ShareState} (h : s.terminal = true) : s.still = true := by
  simp [ShareState.still, h]

/-- The share of a session that ends without completing is neither over nor new. -/
theorem shareAfterTransfer_still {s : Share} {sid : Bytes} {v : SessionView}
    (hstill : s.state.still = false) (hdone : s.mode = .once → v.state ≠ .completed) :
    (shareAfterTransfer s sid v).state.still = false := by
  have hclosed : s.state ≠ .closed := by
    intro hclosed
    rw [hclosed] at hstill
    cases hstill
  unfold shareAfterTransfer
  cases hmode : s.mode with
  | once =>
    simp only
    rw [if_neg (hdone hmode), if_pos hclosed]
    rfl
  | «open» =>
    simp only
    split
    · rfl
    · exact hstill

theorem shareAfterTransfer_sessions (s : Share) (sid : Bytes) (v : SessionView) :
    (shareAfterTransfer s sid v).sessions = s.sessions.erase sid := by
  unfold shareAfterTransfer
  cases s.mode with
  | once =>
    simp only
    split
    · rfl
    · split <;> rfl
  | «open» => simp only; split <;> rfl

variable {io : CoreIo} {c c' : Core}

/-- When a session completes a `once` share, the other sessions of the share have ended. -/
def LastSession (c : Core) (sid : Bytes) (t : Running) : Prop :=
  ∀ s, c.shares[t.shareLocalId]? = some s → s.mode = .once →
    ∀ (sid' : Bytes) (t' : Running), c.transfers[sid']? = some t' → sid' ≠ sid →
      t'.session.isSender = true → t'.shareLocalId = t.shareLocalId →
      t'.session.state.terminal = true

theorem guarded_stateChanged {sid : Bytes} {t : Running} {v : SessionView}
    (changed : StateChanged c sid t v c') (hsender : v.isSender = t.session.isSender)
    (howner : v.owner = t.session.owner)
    (last : v.state = .completed → v.isSender = true → c.LastSession sid t) : Guarded c c' := by
  -- The share of a running session is neither over nor new.
  have hstill : Attached c → ∀ s, v.isSender = true → c.shares[t.shareLocalId]? = some s →
      s.state.still = false := by
    intro ha s hv hs
    by_contra hstill
    have hended := ha.ended sid t s changed.entry (hsender ▸ hv) hs (by simpa using hstill)
    rw [changed.running] at hended
    cases hended
  refine ⟨fun ha => ⟨?_, ?_, ?_, ?_⟩, fun ha => ⟨?_, ?_⟩⟩
  · -- listed
    intro sid' t' ht' hs' hrunning
    rw [changed.transfers] at ht'
    split at ht'
    · obtain rfl := Option.some.inj ht'
      obtain ⟨s, hs, hmem⟩ := ha.listed sid t changed.entry (hsender ▸ hs') changed.running
      rename_i heq
      refine ⟨s, ?_, heq ▸ hmem⟩
      rw [changed.shares, if_neg (fun h => by rw [hrunning] at h; cases h.2.1)]
      exact hs
    · rename_i hne
      obtain ⟨s, hs, hmem⟩ := ha.listed sid' t' ht' hs' hrunning
      rw [changed.shares, hs]
      split
      · refine ⟨_, rfl, ?_⟩
        rw [shareAfterTransfer_sessions, Std.ExtTreeMap.mem_erase]
        exact ⟨by simpa using Ne.symm hne, hmem⟩
      · exact ⟨s, rfl, hmem⟩
  · -- known
    intro sid' t' ht' hs'
    rw [changed.transfers] at ht'
    have hknown : ∃ s, c.shares[t'.shareLocalId]? = some s := by
      split at ht'
      · obtain rfl := Option.some.inj ht'
        exact ha.known sid t changed.entry (hsender ▸ hs')
      · exact ha.known sid' t' ht' hs'
    obtain ⟨s, hs⟩ := hknown
    rw [changed.shares, hs]
    split <;> exact ⟨_, rfl⟩
  · -- ended
    intro sid' t' s' ht' hs' hshare hover
    rw [changed.transfers] at ht'
    rw [changed.shares] at hshare
    split at ht'
    · obtain rfl := Option.some.inj ht'
      by_contra hrunning
      rw [Bool.not_eq_true] at hrunning
      rw [if_neg (fun h => by rw [hrunning] at h; cases h.2.1)] at hshare
      have := hstill ha s' hs' hshare
      rw [hover] at this
      cases this
    · rename_i hne
      split at hshare
      · rename_i hends
        obtain ⟨s, hs, rfl⟩ := Option.map_eq_some_iff.mp hshare
        by_cases hdone : s.mode = .once ∧ v.state = .completed
        · rw [hends.2.2] at hs
          exact last hdone.2 hends.1 s hs hdone.1 sid' t' ht' hne hs' hends.2.2
        · have hnot : (shareAfterTransfer s sid v).state.still = false :=
            shareAfterTransfer_still (hstill ha s hends.1 (hends.2.2 ▸ hs))
              fun hmode hstate => hdone ⟨hmode, hstate⟩
          rw [hover] at hnot
          cases hnot
      · exact ha.ended sid' t' s' ht' hs' hshare hover
  · -- owners
    intro sid' t' ht'
    rw [changed.transfers] at ht'
    rw [changed.nextOwner]
    split at ht'
    · obtain rfl := Option.some.inj ht'
      simpa [howner] using ha.owners sid t changed.entry
    · exact ha.owners sid' t' ht'
  · intro id s hs hterminal
    rw [changed.shares, if_neg]
    · exact ⟨s, hs, rfl⟩
    · rintro ⟨hv, -, rfl⟩
      have := hstill ha s hv hs
      rw [still_of_terminal hterminal] at this
      cases this
  · intro id s _ _ sid' t' ht' hs' hid
    rw [changed.transfers] at ht'
    split at ht'
    · obtain rfl := Option.some.inj ht'
      rename_i heq
      exact ⟨t, heq ▸ changed.entry, hsender ▸ hs', hid, howner.symm⟩
    · exact ⟨t', ht', hs', hid, rfl⟩

/-- The entries get other views of the same sessions, or vanish; the shares stay. -/
theorem guarded_of_views (hshares : c'.shares = c.shares) (howner : c.nextOwner ≤ c'.nextOwner)
    (views : ∀ (sid : Bytes) (t' : Running), c'.transfers[sid]? = some t' →
      ∃ t, c.transfers[sid]? = some t ∧ SameSession t.session t'.session ∧
        t'.shareLocalId = t.shareLocalId) : Guarded c c' := by
  refine ⟨fun ha => ⟨?_, ?_, ?_, ?_⟩, fun ha => ⟨?_, ?_⟩⟩
  · intro sid t' ht' hsender hrunning
    obtain ⟨t, ht, same, hid⟩ := views sid t' ht'
    rw [hshares, hid]
    exact ha.listed sid t ht (same.isSender ▸ hsender) (same.state ▸ hrunning)
  · intro sid t' ht' hsender
    obtain ⟨t, ht, same, hid⟩ := views sid t' ht'
    rw [hshares, hid]
    exact ha.known sid t ht (same.isSender ▸ hsender)
  · intro sid t' s ht' hsender hs hstill
    obtain ⟨t, ht, same, hid⟩ := views sid t' ht'
    rw [hshares, hid] at hs
    rw [same.state]
    exact ha.ended sid t s ht (same.isSender ▸ hsender) hs hstill
  · intro sid t' ht'
    obtain ⟨t, ht, same, -⟩ := views sid t' ht'
    rw [same.owner]
    exact (ha.owners sid t ht).trans_le howner
  · intro id s hs _
    rw [hshares]
    exact ⟨s, hs, rfl⟩
  · intro id s _ _ sid t' ht' hsender hid'
    obtain ⟨t, ht, same, hid⟩ := views sid t' ht'
    exact ⟨t, ht, same.isSender ▸ hsender, hid.symm.trans hid', same.owner.symm⟩

theorem guarded_of_same (same : SameTransfers c c') : Guarded c c' := by
  refine guarded_of_views same.shares same.nextOwner.ge fun sid t' ht' => ?_
  rw [same.transfers] at ht'
  exact ⟨t', ht', ⟨rfl, rfl, rfl, rfl⟩, rfl⟩

theorem guarded_rule : SessionRule Guarded where
  trans := Guarded.trans
  same := guarded_of_same
  view := by
    intro c sid t v entry same
    refine guarded_of_views rfl le_rfl fun sid' t' ht' => ?_
    simp only [OrderedMap.get_insert] at ht'
    split at ht'
    · rename_i heq
      obtain rfl := Option.some.inj ht'
      exact ⟨t, heq ▸ entry, same, rfl⟩
    · exact ⟨t', ht', ⟨rfl, rfl, rfl, rfl⟩, rfl⟩
  change := by
    intro c sid t state error c' hsender changed
    refine guarded_stateChanged changed rfl rfl fun hdone hsend => ?_
    have : t.session.isSender = true := hsend
    rw [hsender hdone] at this
    cases this

theorem kept_rule : SessionRule TransfersKept where
  trans := by
    intro a b c h h' sid t'' ht''
    obtain ⟨t', ht', hsender', hid', howner', hterminal'⟩ := h' sid t'' ht''
    obtain ⟨t, ht, hsender, hid, howner, hterminal⟩ := h sid t' ht'
    exact ⟨t, ht, hsender'.trans hsender, hid'.trans hid, howner'.trans howner,
      fun hstate => hterminal' (hterminal hstate)⟩
  same := by
    intro c c' same sid t' ht'
    rw [same.transfers] at ht'
    exact ⟨t', ht', rfl, rfl, rfl, id⟩
  view := by
    intro c sid t v entry same sid' t' ht'
    simp only [OrderedMap.get_insert] at ht'
    split at ht'
    · rename_i heq
      obtain rfl := Option.some.inj ht'
      exact ⟨t, heq ▸ entry, same.isSender, rfl, same.owner, fun h => same.state ▸ h⟩
    · exact ⟨t', ht', rfl, rfl, rfl, id⟩
  change := by
    intro c sid t state error c' _ changed sid' t' ht'
    rw [changed.transfers] at ht'
    split at ht'
    · rename_i heq
      obtain rfl := Option.some.inj ht'
      refine ⟨t, heq ▸ changed.entry, rfl, rfl, rfl, fun h => ?_⟩
      rw [changed.running] at h
      cases h
    · exact ⟨t', ht', rfl, rfl, rfl, id⟩

/-! ## Shares -/

/-- A share is rewritten that is over only if it was, or if it was being created. -/
theorem guarded_updateShare {id : Bytes} {s s' : Share} (hs : c.shares[id]? = some s)
    (hsessions : ∀ sid, sid ∈ s.sessions → sid ∈ s'.sessions)
    (hterminal : s.state.terminal = true → s'.state = s.state)
    (hstill : s'.state.still = true → s.state.still = true)
    (hshares : ∀ id' : Bytes, c'.shares[id']? = if id' = id then some s' else c.shares[id']?)
    (htransfers : c'.transfers = c.transfers) (howner : c'.nextOwner = c.nextOwner) :
    Guarded c c' := by
  refine ⟨fun ha => ⟨?_, ?_, ?_, ?_⟩, fun ha => ⟨?_, ?_⟩⟩
  · intro sid t ht hsender hrunning
    rw [htransfers] at ht
    obtain ⟨q, hq, hmem⟩ := ha.listed sid t ht hsender hrunning
    rw [hshares]
    split
    · rename_i heq
      rw [heq, hs] at hq
      obtain rfl := Option.some.inj hq
      exact ⟨s', rfl, hsessions sid hmem⟩
    · exact ⟨q, hq, hmem⟩
  · intro sid t ht hsender
    rw [htransfers] at ht
    rw [hshares]
    split
    · exact ⟨s', rfl⟩
    · exact ha.known sid t ht hsender
  · intro sid t q ht hsender hq hover
    rw [htransfers] at ht
    rw [hshares] at hq
    split at hq
    · rename_i heq
      obtain rfl := Option.some.inj hq
      exact ha.ended sid t s ht hsender (heq ▸ hs) (hstill hover)
    · exact ha.ended sid t q ht hsender hq hover
  · intro sid t ht
    rw [htransfers] at ht
    rw [howner]
    exact ha.owners sid t ht
  · intro id' q hq hover
    rw [hshares]
    split
    · rename_i heq
      rw [heq, hs] at hq
      obtain rfl := Option.some.inj hq
      exact ⟨s', rfl, hterminal hover⟩
    · exact ⟨q, hq, rfl⟩
  · intro id' q _ _ sid t ht hsender hid
    rw [htransfers] at ht
    exact ⟨t, ht, hsender, hid, rfl⟩

theorem guarded_modifyShare (id : Bytes) (f : Share → Share)
    (hsessions : ∀ s sid, sid ∈ s.sessions → sid ∈ (f s).sessions)
    (hterminal : ∀ s, c.shares[id]? = some s → s.state.terminal = true → (f s).state = s.state)
    (hstill : ∀ s, c.shares[id]? = some s → (f s).state.still = true → s.state.still = true) :
    Guarded c { c with shares := c.shares.modify id f } := by
  cases hs : c.shares[id]? with
  | none =>
    have hsame : c.shares.modify id f = c.shares := by
      refine Std.ExtTreeMap.ext_getElem? fun id' => ?_
      rw [OrderedMap.get_modify]
      split
      · rename_i heq
        rw [heq, hs]
        rfl
      · rfl
    exact guarded_of_same ⟨rfl, hsame, rfl, rfl⟩
  | some s =>
    refine guarded_updateShare hs (hsessions s) (hterminal s hs) (hstill s hs) (fun id' => ?_) rfl rfl
    rw [OrderedMap.get_modify]
    split
    · rename_i heq
      rw [heq, hs]
      rfl
    · rfl

/-- After the sessions in a list are cancelled, all of them have ended. -/
theorem terminal_cancelSessions (sids : List Bytes) (reason : Bytes) (c : Core) {sid : Bytes}
    (hmem : sid ∈ sids) {t : Running}
    (ht : (sids.foldl (fun c sid => c.cancelSession io sid reason) c).transfers[sid]? = some t) :
    t.session.state.terminal = true := by
  induction sids generalizing c with
  | nil => cases hmem
  | cons first sids ih =>
    rw [List.foldl_cons] at ht
    obtain rfl | hmem := List.mem_cons.mp hmem
    · obtain ⟨t₁, ht₁, -, -, -, hterminal⟩ := kept_rule.foldl _
        (fun c sid => kept_rule.cancelSession c sid reason) sids _ sid t ht
      exact hterminal (terminal_cancelSession io c sid reason ht₁)
    · exact ih _ hmem ht

theorem guarded_closeShareInternal (c : Core) (id reason : Bytes) (state : ShareState) :
    Guarded c (c.closeShareInternal io id state reason) := by
  unfold closeShareInternal
  cases hs : c.shares[id]? with
  | none => exact guarded_rule.refl c
  | some s =>
    simp only
    split
    · exact guarded_rule.refl c
    · rename_i hopen
      set told := if !s.shareId.isEmpty && c.peer && c.signalConnected then
        c.call (.closeShare s.shareId) else c
      have htold : SameTransfers c told := by
        simp only [told]
        split
        · exact sameTransfers_other c ..
        · exact .refl c
      set cancelled := s.sessions.keys.foldl (fun c sid => c.cancelSession io sid reason) told
      have hcancel : Guarded c cancelled := (guarded_of_same htold).trans
        (guarded_rule.foldl _ (fun c sid => guarded_rule.cancelSession c sid reason) _ _)
      have hkept : TransfersKept c cancelled := kept_rule.trans (kept_rule.same htold)
        (kept_rule.foldl _ (fun c sid => kept_rule.cancelSession c sid reason) _ _)
      -- The share listed all its running sessions, so none is left.
      have hended : Attached c → ∀ (sid : Bytes) (t : Running), cancelled.transfers[sid]? = some t →
          t.session.isSender = true → t.shareLocalId = id → t.session.state.terminal = true := by
        intro ha sid t ht hsender hid
        by_contra hrunning
        obtain ⟨t₀, ht₀, hsender₀, hid₀, -, hterminal⟩ := hkept sid t ht
        have hrunning₀ : t₀.session.state.terminal = false := by
          rw [← Bool.not_eq_true]
          exact fun h => hrunning (hterminal h)
        obtain ⟨q, hq, hmem⟩ := ha.listed sid t₀ ht₀ (hsender₀ ▸ hsender) hrunning₀
        rw [← hid₀, hid, hs] at hq
        obtain rfl := Option.some.inj hq
        exact hrunning (terminal_cancelSessions _ reason told (Std.ExtTreeMap.mem_keys.mpr hmem) ht)
      refine ⟨fun ha => ?_, fun ha => ?_⟩
      · have ha' := hcancel.attached ha
        have hshares : ∀ id' : Bytes, (cancelled.shares.modify id fun s =>
            { s with state := state, error := reason })[id']? = if id' = id then
            (cancelled.shares[id']?).map (fun s => { s with state := state, error := reason })
            else cancelled.shares[id']? := fun id' => OrderedMap.get_modify ..
        refine ⟨fun sid t ht hsender hrunning => ?_, fun sid t ht hsender => ?_,
          fun sid t q ht hsender hq hstill => ?_, ha'.owners⟩
        · obtain ⟨q, hq, hmem⟩ := ha'.listed sid t ht hsender hrunning
          simp only [hshares, hq]
          split
          · exact ⟨_, rfl, hmem⟩
          · exact ⟨q, rfl, hmem⟩
        · obtain ⟨q, hq⟩ := ha'.known sid t ht hsender
          simp only [hshares, hq]
          split <;> exact ⟨_, rfl⟩
        · simp only [hshares] at hq
          split at hq
          · rename_i heq
            exact hended ha sid t ht hsender heq
          · exact ha'.ended sid t q ht hsender hq hstill
      · obtain ⟨states, transfers⟩ := hcancel.absorbs ha
        refine ⟨fun id' q hq hterminal => ?_, transfers⟩
        obtain ⟨q', hq', heq'⟩ := states id' q hq hterminal
        refine ⟨q', ?_, heq'⟩
        simp only [OrderedMap.get_modify]
        rw [if_neg]
        · exact hq'
        · rintro rfl
          obtain rfl := Option.some.inj (hs.symm.trans hq)
          exact hopen hterminal

/-- The share is rewritten, keeping its sessions. -/
theorem guarded_setShare {id : Bytes} {s s' : Share} (hs : c.shares[id]? = some s)
    (hsessions : s'.sessions = s.sessions) (hterminal : s.state.terminal = true → s'.state = s.state)
    (hstill : s'.state.still = true → s.state.still = true) : Guarded c (c.setShare id s') := by
  apply guarded_updateShare hs (fun sid hmem => hsessions ▸ hmem) hterminal hstill
  · intro id'
    simp [setShare]
  · rfl
  · rfl

/-- A share with a new local id has no session yet. -/
theorem guarded_newShare {id : Bytes} (fresh : c.shares[id]? = none) (s : Share) :
    Guarded c (c.setShare id s) := by
  have hget : ∀ (id' : Bytes) (q : Share), c.shares[id']? = some q →
      (c.setShare id s).shares[id']? = some q := by
    intro id' q hq
    simp only [setShare, OrderedMap.get_insert]
    rw [if_neg]
    · exact hq
    · rintro rfl
      rw [fresh] at hq
      cases hq
  refine ⟨fun ha => ⟨?_, ?_, ?_, ha.owners⟩, fun ha => ⟨?_, ?_⟩⟩
  · intro sid t ht hsender hrunning
    obtain ⟨q, hq, hmem⟩ := ha.listed sid t ht hsender hrunning
    exact ⟨q, hget _ q hq, hmem⟩
  · intro sid t ht hsender
    obtain ⟨q, hq⟩ := ha.known sid t ht hsender
    exact ⟨q, hget _ q hq⟩
  · intro sid t q ht hsender hq hstill
    obtain ⟨q', hq'⟩ := ha.known sid t ht hsender
    rw [hget _ q' hq'] at hq
    obtain rfl := Option.some.inj hq
    exact ha.ended sid t q' ht hsender hq' hstill
  · intro id' q hq _
    exact ⟨q, hget id' q hq, rfl⟩
  · intro id' q _ _ sid t ht hsender hid
    exact ⟨t, ht, hsender, hid, rfl⟩

theorem guarded_pumpShareQueue (queue : List Bytes) (c : Core) :
    Guarded c (pumpShareQueue io queue c) := by
  induction queue generalizing c with
  | nil => exact guarded_of_same (sameTransfers_other c ..)
  | cons id rest ih =>
    simp only [pumpShareQueue]
    split
    · exact ih c
    · rename_i s hs
      split
      · exact ih c
      · rename_i hcreating
        rw [not_not] at hcreating
        split
        · exact guarded_of_same (sameTransfers_other c ..)
        · -- The request could not be sent; a share that is being created has no sessions.
          refine Guarded.trans ?_ (ih _)
          apply guarded_setShare hs
          · rfl
          · rw [hcreating]
            intro hterminal
            cases hterminal
          · rw [hcreating]
            exact fun _ => rfl

theorem guarded_pumpShareCreates (c : Core) : Guarded c (c.pumpShareCreates io) := by
  unfold pumpShareCreates
  split
  · exact guarded_rule.refl c
  · exact guarded_pumpShareQueue _ c

theorem guarded_shareCreate {id : Bytes} (fresh : c.shares[id]? = none) (mode : ShareMode)
    (ttlSec : Int) (built : Except Bytes (Manifest × Nat)) :
    Guarded c (c.shareCreate io id mode ttlSec built) := by
  unfold shareCreate
  simp only
  split
  · exact guarded_newShare fresh _
  · split
    · exact guarded_newShare fresh _
    · rename_i c' hpeer
      apply (guarded_newShare fresh _).trans
      apply (guarded_of_same (sameTransfers_ensurePeer io hpeer)).trans
      exact (guarded_of_same (sameTransfers_other c' ..)).trans (guarded_pumpShareCreates _)

theorem guarded_shareClose (c : Core) (id : Bytes) : Guarded c (c.shareClose io id) := by
  unfold shareClose
  split
  · exact guarded_closeShareInternal c ..
  · split
    · exact guarded_rule.refl c
    · exact guarded_closeShareInternal c ..

theorem guarded_loseShare (c : Core) (id : Bytes) : Guarded c (c.loseShare io id) := by
  unfold loseShare
  split
  · exact guarded_rule.refl c
  · split
    · exact guarded_closeShareInternal c ..
    · exact guarded_rule.refl c

/-- The first share that waits for its server id is being created. -/
theorem creating_of_firstKey {id : Bytes} {s : Share}
    (hfirst : OrderedMap.firstKey c.shares awaitsId = some id) (hs : c.shares[id]? = some s) :
    s.state = .creating := by
  obtain ⟨⟨q, hq, hawaits⟩, -⟩ := OrderedMap.of_firstKey hfirst
  obtain rfl := Option.some.inj (hq.symm.trans hs)
  simp only [awaitsId, Bool.and_eq_true, beq_iff_eq] at hawaits
  exact hawaits.1

/-- A reply to `create_share` changes the state of a share that is being created. -/
theorem guarded_reply {id : Bytes} (hfirst : OrderedMap.firstKey c.shares awaitsId = some id)
    (f : Share → Share) (hsessions : ∀ s, (f s).sessions = s.sessions) :
    Guarded c { c with shares := c.shares.modify id f } := by
  apply guarded_modifyShare id f
  · intro s sid hmem
    rw [hsessions]
    exact hmem
  · intro s hs hterminal
    rw [creating_of_firstKey hfirst hs] at hterminal
    cases hterminal
  · intro s hs _
    rw [creating_of_firstKey hfirst hs]
    rfl

theorem guarded_onShareEvent (c : Core) (ev : ShareEvent) : Guarded c (c.onShareEvent io ev) := by
  have hclear : Guarded c { c with shareCreateInflight := false } :=
    guarded_of_same (sameTransfers_other c ..)
  cases ev with
  | created shareId code expiresAt =>
    simp only [onShareEvent]
    split
    · exact hclear.trans (guarded_of_same (sameTransfers_other _ ..))
    · rename_i id hfirst
      refine hclear.trans (Guarded.trans ?_ (guarded_pumpShareCreates _))
      exact guarded_reply (c := { c with shareCreateInflight := false }) hfirst _ fun _ => rfl
  | failed detail =>
    simp only [onShareEvent]
    split
    · exact hclear.trans (guarded_pumpShareCreates _)
    · rename_i id hfirst
      refine hclear.trans (Guarded.trans ?_ (guarded_pumpShareCreates _))
      exact guarded_reply (c := { c with shareCreateInflight := false }) hfirst _ fun _ => rfl
  | claimed shareId sessionId =>
    simp only [onShareEvent]
    split
    · exact guarded_rule.refl c
    · apply guarded_modifyShare
      · intro s sid hmem
        simp only
        split
        · exact hmem
        · exact Std.ExtTreeMap.mem_insert.mpr (.inr hmem)
      · intro s _ hterminal
        simp only
        rw [if_neg]
        intro hready
        rw [hready] at hterminal
        cases hterminal
      · intro s _ hstill
        simp only at hstill
        split at hstill
        · cases hstill
        · exact hstill
  | closed shareId reason =>
    simp only [onShareEvent]
    split
    · exact guarded_rule.refl c
    · split
      · exact guarded_rule.refl c
      · rename_i s hs
        split
        · exact guarded_rule.refl c
        · split
          · exact guarded_closeShareInternal c ..
          · exact guarded_setShare hs rfl (fun _ => rfl) id

/-! ## Sessions -/

theorem guarded_dropTransfer (c : Core) (sid : Bytes) : Guarded c (c.dropTransfer sid) := by
  unfold dropTransfer
  split
  · exact guarded_rule.refl c
  · refine guarded_of_views rfl le_rfl fun sid' t' ht' => ?_
    simp only [OrderedMap.get_erase] at ht'
    split at ht'
    · cases ht'
    · exact ⟨t', ht', ⟨rfl, rfl, rfl, rfl⟩, rfl⟩

theorem guarded_lingerDone (c : Core) (sid : Bytes) (owner : Nat) (pending : Bool) :
    Guarded c (c.lingerDone sid owner pending) := by
  unfold lingerDone
  split
  · exact guarded_rule.refl c
  · split
    · exact guarded_rule.refl c
    · split
      · exact guarded_of_same (sameTransfers_other c ..)
      · refine Guarded.trans ?_ (guarded_dropTransfer _ sid)
        split
        · exact guarded_of_same (sameTransfers_other c ..)
        · exact guarded_rule.refl c

/-- A receiving session belongs to no share. -/
theorem guarded_makeReceiver (c : Core) (sid receiveId : Bytes) {v : SessionView}
    (hv : v.isSender = false) : Guarded c (c.makeSession sid v [] receiveId) := by
  have hold : ∀ (sid' : Bytes) (t : Running), (c.makeSession sid v [] receiveId).transfers[sid']? =
      some t → t.session.isSender = true → c.transfers[sid']? = some t := by
    intro sid' t ht hsender
    simp only [makeSession, OrderedMap.get_insert] at ht
    split at ht
    · obtain rfl := Option.some.inj ht
      have : v.isSender = true := hsender
      rw [hv] at this
      cases this
    · exact ht
  refine ⟨fun ha => ⟨?_, ?_, ?_, ?_⟩, fun ha => ⟨?_, ?_⟩⟩
  · intro sid' t ht hsender hrunning
    exact ha.listed sid' t (hold sid' t ht hsender) hsender hrunning
  · intro sid' t ht hsender
    exact ha.known sid' t (hold sid' t ht hsender) hsender
  · intro sid' t s ht hsender hs hstill
    exact ha.ended sid' t s (hold sid' t ht hsender) hsender hs hstill
  · intro sid' t ht
    simp only [makeSession, OrderedMap.get_insert] at ht ⊢
    split at ht
    · obtain rfl := Option.some.inj ht
      exact Nat.lt_succ_self _
    · exact Nat.lt_succ_of_lt (ha.owners sid' t ht)
  · intro id s hs _
    exact ⟨s, hs, rfl⟩
  · intro id s _ _ sid' t ht hsender hid
    exact ⟨t, hold sid' t ht hsender, hsender, hid, rfl⟩

/-- A sending session starts for a share that is not over. -/
theorem guarded_makeSender {id : Bytes} {s : Share} (hs : c.shares[id]? = some s)
    (hopen : s.state.terminal = false) (sid tid : Bytes) {v : SessionView} :
    Guarded c ((c.setShare id { s with
      sessions := s.sessions.insert sid tid, state := .transferring }).makeSession sid v id []) := by
  set s' : Share := { s with sessions := s.sessions.insert sid tid, state := .transferring } with hs'
  set made := (c.setShare id s').makeSession sid v id [] with hmade
  have hshares : ∀ id' : Bytes, made.shares[id']? = if id' = id then some s' else c.shares[id']? :=
    fun id' => OrderedMap.get_insert ..
  have htransfers : ∀ sid' : Bytes, made.transfers[sid']? = if sid' = sid then
      some { session := { v with owner := c.nextOwner }, shareLocalId := id, receiveId := [] }
      else c.transfers[sid']? := fun sid' => OrderedMap.get_insert ..
  have howner : made.nextOwner = c.nextOwner + 1 := rfl
  refine ⟨fun ha => ⟨?_, ?_, ?_, ?_⟩, fun ha => ⟨?_, ?_⟩⟩
  · -- listed
    intro sid' t ht hsender hrunning
    rw [htransfers] at ht
    split at ht
    · rename_i heq
      obtain rfl := Option.some.inj ht
      refine ⟨s', (hshares id).trans (if_pos rfl), ?_⟩
      rw [heq]
      exact Std.ExtTreeMap.mem_insert_self
    · obtain ⟨q, hq, hmem⟩ := ha.listed sid' t ht hsender hrunning
      rw [hshares]
      split
      · rename_i hid
        rw [hid, hs] at hq
        obtain rfl := Option.some.inj hq
        exact ⟨s', rfl, Std.ExtTreeMap.mem_insert.mpr (.inr hmem)⟩
      · exact ⟨q, hq, hmem⟩
  · -- known
    intro sid' t ht hsender
    rw [htransfers] at ht
    rw [hshares]
    split
    · exact ⟨s', rfl⟩
    · rename_i hid
      split at ht
      · obtain rfl := Option.some.inj ht
        exact absurd rfl hid
      · exact ha.known sid' t ht hsender
  · -- ended
    intro sid' t q ht hsender hq hstill
    rw [hshares] at hq
    split at hq
    · obtain rfl := Option.some.inj hq
      cases hstill
    · rename_i hid
      rw [htransfers] at ht
      split at ht
      · obtain rfl := Option.some.inj ht
        exact absurd rfl hid
      · exact ha.ended sid' t q ht hsender hq hstill
  · -- owners
    intro sid' t ht
    rw [htransfers] at ht
    rw [howner]
    split at ht
    · obtain rfl := Option.some.inj ht
      exact Nat.lt_succ_self _
    · exact Nat.lt_succ_of_lt (ha.owners sid' t ht)
  · intro id' q hq hterminal
    rw [hshares, if_neg]
    · exact ⟨q, hq, rfl⟩
    · rintro rfl
      obtain rfl := Option.some.inj (hs.symm.trans hq)
      rw [hopen] at hterminal
      cases hterminal
  · intro id' q hq hterminal sid' t ht hsender hid
    rw [htransfers] at ht
    split at ht
    · obtain rfl := Option.some.inj ht
      obtain rfl : id = id' := hid
      obtain rfl := Option.some.inj (hs.symm.trans hq)
      rw [hopen] at hterminal
      cases hterminal
    · exact ⟨t, ht, hsender, hid, rfl⟩

/-- The share a new sending session finds by its id is not over. -/
def ShareOpen (c : Core) (sid : Bytes) : Prop :=
  ∀ id s, c.findShareBySession sid = some id → c.shares[id]? = some s → s.state.terminal = false

theorem guarded_senderConnecting {sid : Bytes} (hopen : c.ShareOpen sid) :
    Guarded c (c.senderConnecting io sid) := by
  unfold senderConnecting
  split
  · exact guarded_of_same (sameTransfers_other c ..)
  · rename_i id hfound
    split
    · exact guarded_rule.refl c
    · rename_i s hs
      refine guarded_makeSender hs ?_ sid io.newId
      cases hlisted : c.findShareBySession sid with
      | some id' =>
        rw [hlisted] at hfound
        obtain rfl : id' = id := Option.some.inj hfound
        exact hopen id' s hlisted hs
      | none =>
        -- The fallback takes a share that is ready, claimed or transferring.
        have hfallback : c.fallbackShare = some id := by simpa [hlisted] using hfound
        obtain ⟨q, hq, hstate⟩ := OrderedMap.of_leastKey hfallback
        obtain rfl := Option.some.inj (hs.symm.trans hq)
        simp only [Bool.or_eq_true, beq_iff_eq] at hstate
        obtain (hstate | hstate) | hstate := hstate
        all_goals
          rw [hstate]
          rfl

theorem guarded_receiverConnecting (c : Core) (info : SessionInfo) :
    Guarded c (c.receiverConnecting io info) := by
  unfold receiverConnecting
  simp only
  split
  · exact guarded_of_same (sameTransfers_other c ..)
  · split
    · exact guarded_rule.refl c
    · refine Guarded.trans ?_ (guarded_of_same (sameTransfers_saveReceives io _))
      exact (guarded_of_same (sameTransfers_other c ..)).trans (guarded_makeReceiver _ _ _ rfl)

theorem guarded_onSession {info : SessionInfo} (hopen : info.status = .connecting →
      info.isSender = true → c.Idle info.sessionId → c.ShareOpen info.sessionId) :
    Guarded c (c.onSession io info) := by
  have hstart : ∀ c' : Core, c'.shares = c.shares → info.status = .connecting →
      c.Idle info.sessionId → Guarded c'
        (if info.isSender then c'.senderConnecting io info.sessionId
          else c'.receiverConnecting io info) := by
    intro c' hshares hstatus hidle
    split
    · rename_i hsender
      apply guarded_senderConnecting
      intro id s hfound hs
      unfold findShareBySession at hfound
      rw [hshares] at hfound hs
      exact hopen hstatus hsender hidle id s hfound hs
    · exact guarded_receiverConnecting c' info
  unfold onSession
  cases hstatus : info.status with
  | connecting =>
    simp only
    split
    · rename_i entry
      exact hstart c rfl hstatus fun t ht => by rw [entry] at ht; cases ht
    · rename_i t entry
      split
      · rename_i hclosing
        refine (guarded_dropTransfer c info.sessionId).trans (hstart _ ?_ hstatus fun t' ht' => ?_)
        · simp [dropTransfer, entry]
        · obtain rfl := Option.some.inj (entry.symm.trans ht')
          exact hclosing
      · exact guarded_rule.refl c
  | connected =>
    simp only
    split
    · exact guarded_rule.refl c
    · have hready : Guarded c (c.sessionReady io info.sessionId) :=
        guarded_rule.sessionReady c info.sessionId
      split
      · exact hready
      · exact hready.trans (guarded_of_same (sameTransfers_other _ ..))
  | _ =>
    simp only
    split
    · exact guarded_rule.refl c
    · split
      · exact guarded_dropTransfer c _
      · exact (guarded_rule.endSession c _ _).trans (guarded_dropTransfer _ _)

theorem guarded_onSignal (c : Core) (connected : Bool) : Guarded c (c.onSignal io connected) := by
  have hset : Guarded c { c with signalConnected := connected } :=
    guarded_of_same (sameTransfers_other c ..)
  unfold onSignal
  simp only
  split
  · exact hset.trans ((guarded_pumpShareCreates _).trans
      (guarded_of_same (sameTransfers_pumpClaims io _)))
  · split
    · set lost : Core := { { c with signalConnected := connected } with
        shareCreateInflight := false, claimInflight := false }
      have hlost : Guarded { c with signalConnected := connected } lost :=
        guarded_of_same (sameTransfers_other _ ..)
      set closed := lost.shares.keys.foldl (fun c id => c.loseShare io id) lost
      have hclosed : Guarded lost closed :=
        guarded_rule.foldl _ (fun c id => guarded_loseShare c id) _ lost
      apply hset.trans
      apply hlost.trans
      apply hclosed.trans
      exact guarded_rule.foldl _
        (fun c id => guarded_of_same (sameTransfers_loseReceive io c id)) _ closed
    · exact hset

theorem guarded_recreatePeer (c : Core) : Guarded c (c.recreatePeer io) := by
  unfold recreatePeer
  simp only
  set ended := c.transfers.keys.foldl (fun c sid => c.endSession io sid (ascii "reconfigured")) c
  have hended : Guarded c ended :=
    guarded_rule.foldl _ (fun c sid => guarded_rule.endSession c sid _) _ c
  set dropped : Core := { ended with transfers := ∅, transferIds := ∅ }
  have hdropped : Guarded ended dropped := by
    refine guarded_of_views rfl le_rfl fun sid t ht => ?_
    simp [dropped] at ht
  set closed := dropped.shares.keys.foldl
    (fun c id => c.closeShareInternal io id .closed (ascii "reconfigured")) dropped
  have hclosed : Guarded dropped closed :=
    guarded_rule.foldl _ (fun c id => guarded_closeShareInternal c id _ .closed) _ dropped
  have hreset : Guarded closed { closed with peer := false, signalConnected := false } :=
    guarded_of_same (sameTransfers_other closed ..)
  have hall := hended.trans (hdropped.trans (hclosed.trans hreset))
  split
  · rename_i c' hpeer
    exact hall.trans (guarded_of_same (sameTransfers_ensurePeer io hpeer))
  · exact hall

/-! ## Runs -/

/-- The step starts no share under a taken id, starts no session for a share that is over, and
    completes no `once` share that another session still sends. -/
def sharesGuarded (c : Core) (a : CoreIo × Event) : Prop :=
  match a.2 with
  | .shareCreate id .. => c.shares[id]? = none
  | .session info => info.status = .connecting → info.isSender = true →
      c.Idle info.sessionId → c.ShareOpen info.sessionId
  | .sessionState sid state _ => state = .completed → ∀ t, c.transfers[sid]? = some t →
      t.session.state.terminal = false → t.session.isSender = true → c.LastSession sid t
  | _ => True

theorem guarded_handle (c : Core) {e : Event} (hok : sharesGuarded c (io, e)) :
    Guarded c (c.handle io e) := by
  cases e with
  | shareCreate id mode ttlSec built => exact guarded_shareCreate hok mode ttlSec built
  | shareClose id => exact guarded_shareClose c id
  | receiveStart id code dir => exact guarded_of_same (sameTransfers_receiveStart io c id code dir)
  | receiveResume id => exact guarded_of_same (sameTransfers_receiveResume io c id)
  | transferPause id paused => exact guarded_rule.transferPause c id paused
  | transferCancel id => exact guarded_rule.transferCancel io c id
  | signal connected => exact guarded_onSignal c connected
  | share ev => exact guarded_onShareEvent c ev
  | claimResult res sessionId token message =>
    exact guarded_of_same (sameTransfers_onClaimResult io c res sessionId token message)
  | session info => exact guarded_onSession hok
  | sessionState sid state error =>
    obtain ⟨heq, -⟩ | ⟨t, changed⟩ := setSessionState_cases io c sid state error
    · show Guarded c (c.setSessionState io sid state error)
      rw [heq]
      exact guarded_rule.refl c
    · exact guarded_stateChanged changed rfl rfl fun hdone hsender =>
        hok hdone t changed.entry changed.running hsender
  | persist transferId record => exact guarded_of_same (sameTransfers_onPersist io c _ record)
  | linger k pending =>
    simp only [handle]
    split
    · exact guarded_rule.refl c
    · exact (guarded_of_same (sameTransfers_other c ..)).trans (guarded_lingerDone _ _ _ pending)
  | reconfigure => exact guarded_recreatePeer c

theorem attached_init (stored : List Receive) (peer : Bool) :
    Attached (machine stored peer).init := by
  constructor
  all_goals
    intro sid t
    simp [machine, load]

/-- The share `id` keeps its state, and every session that sends its files was made before. -/
structure StaysOver (past c : Core) (id : Bytes) (s : Share) : Prop where
  state : ∃ s', c.shares[id]? = some s' ∧ s'.state = s.state
  sessions : ∀ (sid : Bytes) (t : Running), c.transfers[sid]? = some t →
    t.session.isSender = true → t.shareLocalId = id → t.session.owner < past.nextOwner

theorem share_staysOver_run {stored : List Receive} {peer : Bool} {as : List (CoreIo × Event)}
    {past : Core} {id : Bytes} {s : Share} (run : (machine stored peer).Run sharesGuarded as c)
    (visited : (machine stored peer).Visited as past) (hs : past.shares[id]? = some s)
    (hover : s.state.terminal = true) : StaysOver past c id s := by
  -- Every state on the way absorbs into the present one.
  have hpast : Attached c ∧ ∀ past, (machine stored peer).Visited as past →
      Attached past ∧ Absorbs past c := by
    refine run.history (fun as c => Attached c ∧ ∀ past, (machine stored peer).Visited as past →
      Attached past ∧ Absorbs past c) ⟨attached_init stored peer, fun past visited => ?_⟩
      fun as c a c' run ih hok hstep => ?_
    · rw [visited.nil]
      have ha := attached_init stored peer
      exact ⟨ha, (guarded_rule.refl _).absorbs ha⟩
    · have hguarded : Guarded c c' := by
        obtain rfl := Option.some.inj hstep
        exact guarded_handle c hok
      have ha' := hguarded.attached ih.1
      refine ⟨ha', fun past visited => ?_⟩
      obtain visited | rfl := visited.snoc run hstep
      · obtain ⟨ha, absorbs⟩ := ih.2 past visited
        exact ⟨ha, absorbs.trans (hguarded.absorbs ih.1)⟩
      · exact ⟨ha', (guarded_rule.refl _).absorbs ha'⟩
  obtain ⟨attached, absorbs⟩ := hpast.2 past visited
  refine ⟨absorbs.states id s hs hover, fun sid t ht hsender hid => ?_⟩
  obtain ⟨t₀, ht₀, -, -, howner⟩ := absorbs.transfers id s hs hover sid t ht hsender hid
  rw [← howner]
  exact attached.owners sid t₀ ht₀

/-- A share is created and gets its code; then the user closes it. -/
def closedShareRun : List (CoreIo × Event) :=
  [createOneFile (ascii "sh_1"), (.steady, .signal true),
    (.steady, .share (.created (ascii "s1") (ascii "ABCD") 600)),
    (.steady, .shareClose (ascii "sh_1"))]

theorem exec_closedShareRun :
    ((machine [] true).exec closedShareRun (machine [] true).init).map (fun c =>
      ((c.shares[ascii "sh_1"]?).map (·.state), c.nextOwner)) = some (some .closed, 0) := by
  decide +kernel

/-- After the close the connection is lost. -/
theorem share_staysOver_lostSignal :
    ∃ past c s, (machine [] true).Run sharesGuarded (closedShareRun ++ [(.steady, .signal false)]) c ∧
      (machine [] true).Visited (closedShareRun ++ [(.steady, .signal false)]) past ∧
      past.shares[ascii "sh_1"]? = some s ∧ s.state = .closed ∧
      StaysOver past c (ascii "sh_1") s := by
  obtain ⟨past, hexec, hpast⟩ := Option.map_eq_some_iff.mp exec_closedShareRun
  simp only [Prod.mk.injEq, Option.map_eq_some_iff] at hpast
  obtain ⟨⟨s, hs, hclosed⟩, -⟩ := hpast
  have created : (machine [] true).Run sharesGuarded [createOneFile (ascii "sh_1")]
      ((machine [] true).init.handle .steady (createOneFile (ascii "sh_1")).2) := by
    refine Machine.Run.init.step ?_ rfl
    simp [sharesGuarded, createOneFile, machine, load]
  have run : (machine [] true).Run sharesGuarded closedShareRun past := by
    have hok : ∀ a ∈ closedShareRun.tail, ∀ t, sharesGuarded t a := by
      intro a ha t
      simp only [closedShareRun, List.tail_cons, List.mem_cons, List.not_mem_nil, or_false] at ha
      obtain rfl | rfl | rfl := ha <;> trivial
    exact created.extend hok hexec
  have lost : (machine [] true).Run sharesGuarded (closedShareRun ++ [(.steady, .signal false)])
      (past.handle .steady (.signal false)) := run.step trivial rfl
  have visited : (machine [] true).Visited (closedShareRun ++ [(.steady, .signal false)]) past :=
    (Machine.run_of_exec hexec).visited.mono (List.prefix_append ..)
  refine ⟨past, _, s, lost, visited, hs, hclosed, share_staysOver_run lost visited hs ?_⟩
  rw [hclosed]
  rfl

/-- The share is closed while a receiver's claim is on its way. -/
def claimedClosedRun : List (CoreIo × Event) :=
  closedShareRun ++ [(.steady, .share (.claimed (ascii "s1") (ascii "x1"))),
    (.steady, .session { status := .connecting, sessionId := ascii "x1", isSender := true })]

theorem exec_claimedClosedRun :
    ((machine [] true).exec claimedClosedRun (machine [] true).init).map (fun c =>
      ((c.shares[ascii "sh_1"]?).map (·.state), (c.transfers[ascii "x1"]?).map (fun t =>
        (t.session.isSender, t.shareLocalId, t.session.owner)))) =
    some (some .transferring, some (true, ascii "sh_1", 0)) := by
  decide +kernel

/-- The closed share is `transferring` again, and sends its files in a new session. -/
theorem share_staysOver_claimedClosed :
    ∃ past c s, (machine [] true).Run Machine.anyStep claimedClosedRun c ∧
      (machine [] true).Visited claimedClosedRun past ∧ past.shares[ascii "sh_1"]? = some s ∧
      s.state = .closed ∧ (∃ s', c.shares[ascii "sh_1"]? = some s' ∧ s'.state = .transferring) ∧
      ∃ t, c.transfers[ascii "x1"]? = some t ∧ t.session.isSender = true ∧
        t.shareLocalId = ascii "sh_1" ∧ ¬ t.session.owner < past.nextOwner := by
  obtain ⟨past, hexec, hpast⟩ := Option.map_eq_some_iff.mp exec_closedShareRun
  obtain ⟨c, hexec', hc⟩ := Option.map_eq_some_iff.mp exec_claimedClosedRun
  simp only [Prod.mk.injEq, Option.map_eq_some_iff] at hpast hc
  obtain ⟨⟨s, hs, hclosed⟩, howner⟩ := hpast
  obtain ⟨hs', t, ht, hsender, hid, -⟩ := hc
  refine ⟨past, c, s, Machine.run_of_exec hexec', ?_, hs, hclosed, hs', t, ht, hsender, hid, ?_⟩
  · exact (Machine.run_of_exec hexec).visited.mono (List.prefix_append ..)
  · rw [howner]
    exact Nat.not_lt_zero _

end Core

end CrossTransfer.Api
