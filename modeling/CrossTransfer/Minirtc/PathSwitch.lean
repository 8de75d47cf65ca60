import CrossTransfer.Minirtc.PeerConnection

/-! # Falling back to the relay

A completion is posted as a `bool`, and nothing says which handshake it is of. So a completion that is
on its way when `SwitchToRelay` calls `Restart` is taken for one of the next handshake
(`not_noneSuperseded`); when none is, only the handshake on the relay path counts
(`noneSuperseded_run`).
-/

namespace CrossTransfer.Minirtc

open CrossTransfer.Library
open CrossTransfer.Transfer

/-! ## What a handshake may do -/

/-- A change of the status by a handshake is by the current one, and after the fallback this is the
    first one on the relay path, or the session is ended from outside. -/
structure Change.Fair (c : Change) : Prop where
  current : ∀ h, c.cause = .handshake h → h = c.current
  relay : c.relay = true → c.cause = .outside ∨ c.cause = .handshake 1

/-- Statements about to hand out the outcome of a handshake. -/
def Op.isCompletion : Op → Bool
  | .publish _ _ | .endSessionAsync _ => true
  | _ => false

namespace Session

/-- No outcome of a handshake is on its way to the worker. -/
def noneOnTheWay (s : Session) : Bool :=
  (s.network .ice).all (fun op => !op.isCompletion) &&
    (s.network .webSocket).all (fun op => !op.isCompletion) &&
    s.queue.all fun task => !task.isCompletion

/-- `Restart` is called only when no outcome is on its way. -/
def Settled (s : Session) : Act → Prop
  | .work _ => s.worker.head? = some .restart → s.noneOnTheWay = true
  | _ => True

instance (s : Session) (a : Act) : Decidable (s.Settled a) :=
  match a with
  | .work _ => inferInstanceAs (Decidable (_ → _))
  | .post _ | .datagram _ | .run _ _ => .isTrue trivial

end Session

/-- A statement of a receiving thread, or of the worker outside of `Restart` and `Housekeeping`, which
    knows no other handshake than `r`. -/
def Op.Knows (r : Handshake) : Op → Prop
  | .restart | .clearStarted | .checkDtls _ _ => False
  | .publish h _ | .endSessionAsync h => h = r
  | _ => True

def Task.Knows (r : Handshake) : Task → Prop
  | .dtlsDone h _ | .dtlsFailed h => h = r
  | _ => True

namespace Session

/-- `started` was set for the current handshake. -/
def Started (s : Session) : Prop := s.dtls.started = true → s.dtls.startedFor = s.dtls.restarts

/-- Where the worker is. -/
inductive Phase (s : Session) : Prop
  | fallingBack : s.worker = [.restart, .onPathReady] → s.relay = true → s.dtls.restarts = 0 → Phase s
  | clearing (ops : List Op) : s.worker = .clearStarted :: ops → (∀ op ∈ ops, op.Knows 1) →
      s.relay = true → s.dtls.restarts = 1 → Phase s
  | checking (now dtlsStartedMs : Int) : s.worker = [.checkDtls now dtlsStartedMs] →
      s.dtls.restarts = s.relay.toNat → s.Started → Phase s
  | plain : (∀ op ∈ s.worker, op.Knows s.dtls.restarts) → s.dtls.restarts = s.relay.toNat →
      s.Started → Phase s

structure Inv (s : Session) : Prop where
  phase : s.Phase
  network : ∀ i, ∀ op ∈ s.network i, op.Knows s.dtls.restarts
  queue : ∀ task ∈ s.queue, task.Knows s.dtls.restarts
  ssl : ∀ h, s.dtls.ssl = some h → h = s.dtls.restarts
  changes : ∀ c ∈ s.changes, c.Fair

/-- What a plain statement leaves as it is, and what it adds. -/
structure Executed (s s' : Session) (next : List Op) : Prop where
  worker : s'.worker = s.worker
  network : s'.network = s.network
  relay : s'.relay = s.relay
  restarts : s'.dtls.restarts = s.dtls.restarts
  changes : s'.changes = s.changes
  started : s.Started → s'.Started
  ssl : (∀ h, s.dtls.ssl = some h → h = s.dtls.restarts) →
    ∀ h, s'.dtls.ssl = some h → h = s.dtls.restarts
  queue : ∀ task ∈ s'.queue, task ∈ s.queue ∨ task.Knows s.dtls.restarts
  next : (∀ h, s.dtls.ssl = some h → h = s.dtls.restarts) → ∀ op ∈ next, op.Knows s.dtls.restarts

variable {s s' : Session} {params : Params} {io : Io}

/-- A statement that changes nothing but the flags, if it knows who has set `started`. -/
theorem Executed.flags {dtls : DtlsTransport} (restarts : dtls.restarts = s.dtls.restarts)
    (ssl : dtls.ssl = s.dtls.ssl) (started : s.Started → Started { s with dtls := dtls }) :
    s.Executed { s with dtls := dtls } [] where
  worker := rfl
  network := rfl
  relay := rfl
  restarts := restarts
  changes := rfl
  started := started
  ssl hssl := ssl ▸ hssl
  queue _ htask := .inl htask
  next _ := by simp

theorem Executed.idle (next : List Op) (knows : ∀ op ∈ next, op.Knows s.dtls.restarts) :
    s.Executed s next where
  worker := rfl
  network := rfl
  relay := rfl
  restarts := rfl
  changes := rfl
  started := id
  ssl := id
  queue _ htask := .inl htask
  next _ := knows

theorem Executed.posted {task : Task} (knows : task.Knows s.dtls.restarts) :
    s.Executed { s with queue := s.queue ++ [task] } [] where
  worker := rfl
  network := rfl
  relay := rfl
  restarts := rfl
  changes := rfl
  started := id
  ssl := id
  queue other hother := by
    refine (List.mem_append.mp hother).imp_right fun hmem => ?_
    rwa [List.mem_singleton.mp hmem]
  next _ := by simp

/-- A call of the DTLS transport under its mutex. -/
theorem Executed.locked {dtls : DtlsTransport} {next : List Op}
    (same : s.dtls.SameHandshake dtls)
    (ssl : dtls.ssl = s.dtls.ssl ∨ dtls.ssl = none ∨ dtls.ssl = some s.dtls.restarts)
    (knows : (∀ h, s.dtls.ssl = some h → h = s.dtls.restarts) →
      ∀ op ∈ next, op.Knows s.dtls.restarts) :
    s.Executed { s with dtls := dtls } next where
  worker := rfl
  network := rfl
  relay := rfl
  restarts := same.restarts
  changes := rfl
  started h hstarted := by
    have hbefore : s.dtls.started = true := same.started ▸ hstarted
    change dtls.startedFor = dtls.restarts
    rw [same.startedFor, same.restarts, h hbefore]
  ssl hssl h hsome := by
    change dtls.ssl = some h at hsome
    obtain heq | heq | heq := ssl
    · exact hssl h (heq ▸ hsome)
    · rw [heq] at hsome
      cases hsome
    · rw [heq] at hsome
      exact (Option.some.inj hsome).symm
  queue _ htask := .inl htask
  next := knows

theorem execute_executed (io : Io) {op : Op} (knows : op.Knows s.dtls.restarts) :
    s.Executed (s.execute io op).1 (s.execute io op).2 := by
  cases op with
  | restart => exact knows.elim
  | clearStarted => exact knows.elim
  | checkDtls now dtlsStartedMs => exact knows.elim
  | clearHandshakeDone => exact .flags rfl rfl id
  | clearVerified => exact .flags rfl rfl id
  | clearFailed => exact .flags rfl rfl id
  | onPathReady => exact .idle [.maybeStartDtls] (by simp [Op.Knows])
  | maybeStartDtls =>
    rw [execute]
    split
    · exact .idle _ (by simp)
    · exact ⟨rfl, rfl, rfl, rfl, rfl, id, id, fun _ htask => .inl htask, fun _ => by simp [Op.Knows]⟩
  | start =>
    rw [execute]
    split
    · exact .idle _ (by simp)
    · dsimp only
      split
      all_goals
        refine ⟨rfl, rfl, rfl, rfl, rfl, fun _ _ => rfl, id, fun _ htask => .inl htask, fun _ => ?_⟩
        simp [Op.Knows]
  | startLocked =>
    obtain ⟨same, ssl⟩ := DtlsTransport.sameHandshake_startLocked (t := s.dtls) io.setup io.ssl
    refine .locked same ssl fun _ op hop => ?_
    -- Whatever `Start` says, it says of the handshake that is current under the mutex.
    have hrestarts := same.restarts
    simp only [execute] at hop
    obtain hop | hop := List.mem_append.mp hop
    · split at hop
      · cases hop
      · rw [List.mem_singleton.mp hop]
        exact hrestarts
    · split at hop
      · rw [List.mem_singleton.mp hop]
        exact hrestarts
      · cases hop
  | handleIncoming =>
    obtain ⟨same, ssl, of⟩ := DtlsTransport.sameHandshake_handleIncoming (t := s.dtls) io.ssl
    refine .locked same (.inl ssl) fun hssl op hop => ?_
    obtain ⟨⟨h, done⟩, hdone, rfl⟩ := Option.map_eq_some_iff.mp (Option.mem_toList.mp hop)
    exact hssl h (of h done hdone)
  | publish h d => exact .posted knows
  | endSessionAsync h => exact .posted knows

/-! ## The tasks of the worker -/

/-- A change that leaves alone what the threads know. -/
theorem Inv.alter (inv : s.Inv) (phase : s'.Phase) (network : s'.network = s.network)
    (restarts : s'.dtls.restarts = s.dtls.restarts) (ssl : s'.dtls.ssl = s.dtls.ssl)
    (queue : ∀ task ∈ s'.queue, task ∈ s.queue ∨ task.Knows s.dtls.restarts)
    (changes : ∀ c ∈ s'.changes, c ∈ s.changes ∨ c.Fair) : s'.Inv where
  phase := phase
  network i op hop := by
    rw [restarts]
    exact inv.network i op (network ▸ hop)
  queue task htask := by
    rw [restarts]
    exact (queue task htask).elim (inv.queue task) id
  ssl h hsome := by
    rw [restarts]
    exact inv.ssl h (ssl ▸ hsome)
  changes c hc := (changes c hc).elim (inv.changes c) id

/-- Between two tasks. -/
theorem Inv.idle (inv : s.Inv) (idle : s.worker = []) :
    s.dtls.restarts = s.relay.toNat ∧ s.Started := by
  cases inv.phase with
  | fallingBack hworker => simp [idle] at hworker
  | clearing ops hworker => simp [idle] at hworker
  | checking now dtlsStartedMs hworker => simp [idle] at hworker
  | plain _ hrestarts hstarted => exact ⟨hrestarts, hstarted⟩

theorem fair_handshake (hrestarts : s.dtls.restarts = s.relay.toNat) (status : SessionStatus) :
    Change.Fair ⟨status, .handshake s.dtls.restarts, s.dtls.restarts, s.relay⟩ where
  current h heq := (Cause.handshake.inj heq).symm
  relay hrelay := by
    have hrelay : s.relay = true := hrelay
    rw [hrelay] at hrestarts
    exact .inr (by rw [hrestarts]; rfl)

theorem fair_outside (status : SessionStatus) :
    Change.Fair ⟨status, .outside, s.dtls.restarts, s.relay⟩ where
  current h heq := by cases heq
  relay _ := .inl rfl

theorem fair_ice (direct : s.relay = false) (status : SessionStatus) :
    Change.Fair ⟨status, .ice, s.dtls.restarts, s.relay⟩ where
  current h heq := by cases heq
  relay hrelay := by
    have hrelay : s.relay = true := hrelay
    rw [direct] at hrelay
    cases hrelay

theorem Phase.same (phase : s.Phase) (worker : s'.worker = s.worker) (relay : s'.relay = s.relay)
    (dtls : s'.dtls = s.dtls) : s'.Phase := by
  cases phase with
  | fallingBack hworker hrelay hrestarts =>
    exact .fallingBack (worker ▸ hworker) (relay ▸ hrelay) (dtls ▸ hrestarts)
  | clearing ops hworker hknows hrelay hrestarts =>
    exact .clearing ops (worker ▸ hworker) hknows (relay ▸ hrelay) (dtls ▸ hrestarts)
  | checking now dtlsStartedMs hworker hrestarts hstarted =>
    refine .checking now dtlsStartedMs (worker ▸ hworker) (by rw [dtls, relay, hrestarts]) ?_
    rw [Started, dtls]
    exact hstarted
  | plain hknows hrestarts hstarted =>
    refine .plain (by rwa [worker, dtls]) (by rw [dtls, relay, hrestarts]) ?_
    rw [Started, dtls]
    exact hstarted

theorem Inv.setStatus {status : SessionStatus} {cause : Cause} (inv : s.Inv)
    (fair : Change.Fair ⟨status, cause, s.dtls.restarts, s.relay⟩) :
    (s.setStatus status cause).Inv := by
  refine inv.alter (inv.phase.same rfl rfl rfl) rfl rfl rfl (fun _ htask => .inl htask) fun c hc => ?_
  refine (List.mem_append.mp hc).imp_right fun hmem => ?_
  rwa [List.mem_singleton.mp hmem]

theorem Inv.endSession {status : SessionStatus} {cause : Cause} (inv : s.Inv)
    (fair : Change.Fair ⟨status, cause, s.dtls.restarts, s.relay⟩) :
    (s.endSession status cause).Inv := by
  unfold Session.endSession
  split
  · exact inv
  · have ended : Inv { s with ended := true } :=
      inv.alter (inv.phase.same rfl rfl rfl) rfl rfl rfl (fun _ htask => .inl htask)
        fun _ hc => .inl hc
    exact ended.setStatus fair

theorem Inv.connect {cause : Cause} (inv : s.Inv)
    (fair : Change.Fair ⟨.connected, cause, s.dtls.restarts, s.relay⟩) : (s.connect cause).Inv := by
  have ready : Inv { s with transportReady := true } :=
    inv.alter (inv.phase.same rfl rfl rfl) rfl rfl rfl (fun _ htask => .inl htask) fun _ hc => .inl hc
  exact ready.setStatus fair

theorem Inv.switchToRelay (inv : s.Inv) (idle : s.worker = []) : s.switchToRelay.Inv := by
  obtain ⟨hrestarts, -⟩ := inv.idle idle
  unfold Session.switchToRelay
  split
  · exact inv
  · rename_i hdirect
    rw [Bool.or_eq_true, not_or, Bool.not_eq_true] at hdirect
    rw [hdirect.1] at hrestarts
    exact inv.alter (.fallingBack rfl rfl hrestarts) rfl rfl rfl (fun _ htask => .inl htask)
      fun _ hc => .inl hc

/-- ICE has a path: the handshake may begin. -/
theorem Inv.pathReady (inv : s.Inv) (idle : s.worker = []) :
    Inv { s with pathReady := true, worker := if s.pathReady then [] else [.onPathReady] } := by
  obtain ⟨hrestarts, hstarted⟩ := inv.idle idle
  refine inv.alter (.plain (fun op hop => ?_) hrestarts hstarted) rfl rfl rfl
    (fun _ htask => .inl htask) fun _ hc => .inl hc
  dsimp only at hop
  split at hop
  · cases hop
  · rw [List.mem_singleton.mp hop]
    exact trivial

theorem Inv.onIceState {st : IceState} (inv : s.Inv) (idle : s.worker = []) :
    (s.onIceState params st).Inv := by
  unfold Session.onIceState
  split
  iterate 2
    split
    · exact inv
    · exact inv.pathReady idle
  · split
    · exact inv
    · rename_i hdirect
      split
      · exact inv.switchToRelay idle
      · exact inv.endSession (fair_ice (by simpa using hdirect) _)
  · exact inv

theorem Inv.housekeeping (inv : s.Inv) (idle : s.worker = []) :
    (s.housekeeping params io).Inv := by
  obtain ⟨hrestarts, hstarted⟩ := inv.idle idle
  unfold Session.housekeeping
  split
  · rename_i hlate
    split
    · exact inv.switchToRelay idle
    · refine inv.endSession (fair_ice ?_ _)
      simp only [Bool.and_eq_true, Bool.not_eq_true'] at hlate
      exact hlate.1.2
  · split
    · exact inv.alter (.checking _ _ rfl hrestarts hstarted) rfl rfl rfl (fun _ htask => .inl htask)
        fun _ hc => .inl hc
    · exact inv

theorem Inv.applyRemoteDescription {fingerprint : Bytes} {applies : Bool} (inv : s.Inv)
    (idle : s.worker = []) : (s.applyRemoteDescription fingerprint applies).Inv := by
  obtain ⟨hrestarts, hstarted⟩ := inv.idle idle
  unfold Session.applyRemoteDescription
  split
  · exact inv.endSession (fair_outside _)
  · have described : Inv { s with dtls := { s.dtls with remoteFingerprint := fingerprint } } :=
      inv.alter (.plain (by simp [idle]) hrestarts hstarted) rfl rfl rfl (fun _ htask => .inl htask)
        fun _ hc => .inl hc
    dsimp only
    split
    · exact described
    · exact described.endSession (fair_outside _)

theorem Inv.perform {task : Task} (inv : s.Inv) (idle : s.worker = [])
    (knows : task.Knows s.dtls.restarts) : (s.perform params io task).Inv := by
  obtain ⟨hrestarts, hstarted⟩ := inv.idle idle
  cases task with
  | iceState st =>
    rw [Session.perform]
    split
    · exact inv
    · exact inv.onIceState idle
  | description fingerprint applies =>
    rw [Session.perform]
    split
    · exact inv
    · exact inv.applyRemoteDescription idle
  | relaySignal =>
    rw [Session.perform]
    split
    · exact inv
    · exact inv.switchToRelay idle
  | relayFrame => exact inv.switchToRelay idle
  | sessionEnd status => exact inv.endSession (fair_outside status)
  | housekeeping =>
    rw [Session.perform]
    split
    · exact inv
    · exact inv.housekeeping idle
  | dtlsDone h verified =>
    have hfair := fair_handshake hrestarts
    rw [show h = s.dtls.restarts from knows, Session.perform, onDtlsDone]
    split
    · exact inv
    split
    · exact inv.endSession (hfair _)
    split
    · exact inv.endSession (hfair _)
    · exact inv.connect (hfair _)
  | dtlsFailed h =>
    rw [show h = s.dtls.restarts from knows]
    exact inv.endSession (fair_handshake hrestarts _)

/-! ## Steps -/

theorem knows_of_not_completion {op : Op} {r r' : Handshake} (knows : op.Knows r)
    (h : op.isCompletion = false) : op.Knows r' := by
  cases op with
  | publish => cases h
  | endSessionAsync => cases h
  | _ => exact knows

theorem task_knows_of_not_completion {task : Task} {r : Handshake}
    (h : task.isCompletion = false) : task.Knows r := by
  cases task with
  | dtlsDone => cases h
  | dtlsFailed => cases h
  | _ => exact trivial

theorem noneOnTheWay_iff : s.noneOnTheWay = true ↔
    (∀ i, ∀ op ∈ s.network i, op.isCompletion = false) ∧
      ∀ task ∈ s.queue, task.isCompletion = false := by
  simp only [noneOnTheWay, Bool.and_eq_true, List.all_eq_true, Bool.not_eq_true']
  constructor
  · rintro ⟨⟨hice, hwebSocket⟩, hqueue⟩
    refine ⟨fun i => ?_, hqueue⟩
    cases i with
    | ice => exact hice
    | webSocket => exact hwebSocket
  · rintro ⟨hnetwork, hqueue⟩
    exact ⟨⟨hnetwork .ice, hnetwork .webSocket⟩, hqueue⟩

/-- `Cleanup`, when nothing of the old handshake is on its way. -/
theorem Inv.restart (inv : s.Inv) (relay : s.relay = true) (first : s.dtls.restarts = 0)
    (none : s.noneOnTheWay = true) :
    Inv { s with
      dtls := s.dtls.cleanup
      worker := [.clearStarted, .clearHandshakeDone, .clearVerified, .clearFailed, .onPathReady] } := by
  obtain ⟨hnetwork, hqueue⟩ := noneOnTheWay_iff.mp none
  have hrestarts : s.dtls.cleanup.restarts = 1 := by rw [DtlsTransport.cleanup, first]
  constructor
  · exact .clearing _ rfl (by simp [Op.Knows]) relay hrestarts
  · exact fun i op hop => knows_of_not_completion (inv.network i op hop) (hnetwork i op hop)
  · exact fun task htask => task_knows_of_not_completion (hqueue task htask)
  · intro h hsome
    cases hsome
  · exact inv.changes

/-- What the threads know after a plain statement. -/
theorem Inv.executed {next : List Op} {worker : List Op} {network : Receiving → List Op} (inv : s.Inv)
    (executed : s.Executed s' next) (phase : Phase { s' with worker := worker, network := network })
    (knows : ∀ i, ∀ op ∈ network i, op ∈ s.network i ∨ op ∈ next) :
    Inv { s' with worker := worker, network := network } where
  phase := phase
  network i op hop := by
    dsimp only
    rw [executed.restarts]
    exact (knows i op hop).elim (inv.network i op) (executed.next inv.ssl op)
  queue task htask := by
    dsimp only
    rw [executed.restarts]
    exact (executed.queue task htask).elim (inv.queue task) id
  ssl h hsome := by
    dsimp only
    rw [executed.restarts]
    exact executed.ssl inv.ssl h hsome
  changes c hc := inv.changes c (executed.changes ▸ hc)

/-- The worker executes a plain statement. -/
theorem Inv.worked {op : Op} {rest : List Op} (inv : s.Inv) (worker : s.worker = op :: rest)
    (knows : ∀ op ∈ s.worker, op.Knows s.dtls.restarts)
    (hrestarts : s.dtls.restarts = s.relay.toNat) (hstarted : s.Started) :
    Inv { (s.execute io op).1 with worker := (s.execute io op).2 ++ rest } := by
  rw [worker, List.forall_mem_cons] at knows
  have executed := execute_executed io knows.1
  refine inv.executed executed (.plain (fun op' hop => ?_) ?_ (executed.started hstarted))
    fun i op' hop => .inl (executed.network ▸ hop)
  · dsimp only
    rw [executed.restarts]
    exact (List.mem_append.mp hop).elim (executed.next inv.ssl op') (knows.2 op')
  · dsimp only
    rw [executed.restarts, executed.relay, hrestarts]

/-- The receiving threads do not disturb the worker. -/
theorem Phase.executed {next : List Op} (phase : s.Phase) (executed : s.Executed s' next) :
    s'.Phase := by
  have hrestarts := executed.restarts
  have hworker := executed.worker
  have hrelay := executed.relay
  cases phase with
  | fallingBack worker relay first =>
    exact .fallingBack (hworker ▸ worker) (hrelay ▸ relay) (hrestarts ▸ first)
  | clearing ops worker knows relay restarted =>
    exact .clearing ops (hworker ▸ worker) knows (hrelay ▸ relay) (hrestarts ▸ restarted)
  | checking now dtlsStartedMs worker restarted started =>
    refine .checking now dtlsStartedMs (hworker ▸ worker) ?_ (executed.started started)
    rw [hrestarts, hrelay, restarted]
  | plain knows restarted started =>
    refine .plain ?_ ?_ (executed.started started)
    · rwa [hworker, hrestarts]
    · rw [hrestarts, hrelay, restarted]

/-- A receiving thread executes a statement. -/
theorem Inv.received {op : Op} {rest : List Op} {i : Receiving} (inv : s.Inv)
    (network : s.network i = op :: rest) :
    Inv { (s.execute io op).1 with
      network := Function.update (s.execute io op).1.network i ((s.execute io op).2 ++ rest) } := by
  have knows := inv.network i
  rw [network, List.forall_mem_cons] at knows
  have executed := execute_executed io knows.1
  have phase := inv.phase.executed executed
  refine inv.executed executed (phase.same rfl rfl rfl) fun j op' hop => ?_
  rw [executed.network, Function.update_apply] at hop
  split at hop
  · rename_i heq
    subst heq
    rw [network]
    exact (List.mem_append.mp hop).symm.imp_left (List.mem_cons_of_mem _)
  · exact .inl hop

/-- `Housekeeping` looks at the DTLS transport. -/
theorem Inv.checked (io : Io) {now dtlsStartedMs : Int} (inv : s.Inv)
    (hrestarts : s.dtls.restarts = s.relay.toNat) (hstarted : s.Started) :
    Inv { (s.execute io (.checkDtls now dtlsStartedMs)).1 with
      worker := (s.execute io (.checkDtls now dtlsStartedMs)).2 ++ [] } := by
  have next : ∀ {s : Session}, s.Inv → s.dtls.restarts = s.relay.toNat → s.Started →
      ∀ ops : List Op, (∀ op ∈ ops, op.Knows s.dtls.restarts) → Inv { s with worker := ops ++ [] } := by
    intro s inv hrestarts hstarted ops knows
    exact inv.alter (.plain (by simpa using knows) hrestarts hstarted) rfl rfl rfl
      (fun _ htask => .inl htask) fun _ hc => .inl hc
  rw [execute]
  split
  · exact next inv hrestarts hstarted _ (by simp [Op.Knows])
  · rename_i hon
    split
    · -- The handshake that takes too long is the current one.
      have hcurrent : s.dtls.startedFor = s.dtls.restarts := hstarted (by simpa using hon)
      rw [hcurrent]
      refine next (inv.endSession (fair_handshake hrestarts .failed)) ?_ ?_ _ (by simp)
      · rw [dtls_endSession, relay_endSession, hrestarts]
      · rw [Started, dtls_endSession]
        exact hstarted
    · exact next inv hrestarts hstarted _ (by simp)

theorem Inv.step {a : Act} (inv : s.Inv) (settled : s.Settled a)
    (hstep : s.step params a = some s') : s'.Inv := by
  cases a with
  | post task =>
    rw [Session.step] at hstep
    split at hstep
    · cases hstep
    · rename_i hpost
      cases hstep
      refine inv.alter (inv.phase.same rfl rfl rfl) rfl rfl rfl (fun other hother => ?_)
        fun _ hc => .inl hc
      refine (List.mem_append.mp hother).imp_right fun hmem => ?_
      rw [List.mem_singleton.mp hmem]
      refine task_knows_of_not_completion ?_
      rw [Bool.or_eq_true, not_or, Bool.not_eq_true] at hpost
      exact hpost.1
  | work io =>
    rw [Session.step] at hstep
    split at hstep
    · rename_i op rest hworker
      cases hstep
      -- What the worker does next depends on where it is in falling back to the relay.
      cases inv.phase with
      | fallingBack hfalling relay first =>
        obtain ⟨rfl, rfl⟩ := List.cons.inj (hworker.symm.trans hfalling)
        exact inv.restart relay first (settled (by rw [hworker]; rfl))
      | clearing ops hclearing knows relay restarted =>
        obtain ⟨rfl, rfl⟩ := List.cons.inj (hworker.symm.trans hclearing)
        refine inv.alter (.plain ?_ ?_ fun h => by cases h) rfl rfl rfl (fun _ htask => .inl htask)
          fun _ hc => .inl hc
        · rw [← restarted] at knows
          exact knows
        · rw [show s.dtls.restarts = 1 from restarted, relay]
          rfl
      | checking now dtlsStartedMs hchecking hrestarts hstarted =>
        obtain ⟨rfl, rfl⟩ := List.cons.inj (hworker.symm.trans hchecking)
        exact inv.checked io hrestarts hstarted
      | plain knows hrestarts hstarted => exact inv.worked hworker knows hrestarts hstarted
    · -- The worker is idle and takes the next task of the queue.
      rename_i hidle
      split at hstep
      · cases hstep
      · rename_i task queue hqueue
        cases hstep
        have knows := inv.queue
        rw [hqueue, List.forall_mem_cons] at knows
        have popped : Inv { s with queue := queue } :=
          inv.alter (inv.phase.same rfl rfl rfl) rfl rfl rfl (fun t ht => .inr (knows.2 t ht))
            fun _ hc => .inl hc
        exact popped.perform hidle knows.1
  | datagram i =>
    rw [Session.step] at hstep
    split at hstep
    · cases hstep
    · cases hstep
      -- Only the operations of the network thread of this path change.
      refine ⟨inv.phase.same rfl rfl rfl, fun j op hop => ?_, inv.queue, inv.ssl, inv.changes⟩
      dsimp only at hop
      rw [Function.update_apply] at hop
      split at hop
      · unfold onPathDatagram at hop
        split at hop
        all_goals
          fin_cases hop
          all_goals exact trivial
      · exact inv.network j op hop
  | run i io =>
    rw [Session.step] at hstep
    split at hstep
    · cases hstep
    · rename_i op rest hnetwork
      cases hstep
      exact inv.received hnetwork

end Session

/-- Every interleaving in which no outcome of the handshake before is on its way when `Restart` is
    called: the session is connected, and fails, by the current handshake only, which after the
    fallback is the one on the relay path. -/
theorem noneSuperseded_run {params : Params} {hasCertificate : Bool} {createdMs : Int}
    {as : List Act} {s : Session}
    (run : (session params hasCertificate createdMs).Run Session.Settled as s) :
    ∀ c ∈ s.changes, c.Fair := by
  have start : (session params hasCertificate createdMs).init.Inv := by
    have direct : Session.Inv
        { dtls := { hasCertificate := hasCertificate }, createdMs := createdMs } :=
      ⟨.plain (by simp) rfl fun h => absurd h Bool.false_ne_true, by simp, by simp, by simp, by simp⟩
    dsimp only [session]
    split
    · exact direct.switchToRelay rfl
    · exact direct
  exact (run.invariant Session.Inv start fun _ _ _ inv settled hstep =>
    inv.step settled hstep).changes

/-- The peer's fingerprint has arrived, ICE has a path, and the handshake has begun. -/
def begun : List Act :=
  [.post (.description [1] true), .post (.iceState .connected), .work {}, .work {}, .work {}, .work {},
    .work {}, .work {}]

/-- The worker falls back, and the handshake on the relay path begins. -/
def fallBack : List Act := List.replicate 10 (.work {})

/-- The handshake is done, with the right certificate. -/
def answered (i : Receiving) : List Act :=
  [.datagram i, .run i { ssl := .finished (some [1]) }, .run i {}]

/-- The peer asks for the relay before it has answered. -/
def unanswered : List Act :=
  begun ++ [.post .relaySignal] ++ fallBack ++ answered .webSocket ++ [.work {}]

theorem noneSuperseded_unanswered : ∃ s : Session,
    s.changes = [⟨.connected, .handshake 1, 1, true⟩] ∧ ∀ c ∈ s.changes, c.Fair := by
  let M := session { iceTimeoutMs := 15000 } true 0
  have hexec : (M.exec unanswered M.init).map (fun s => s.changes) =
      some [⟨.connected, .handshake 1, 1, true⟩] := by
    decide +kernel
  have hpasses : M.passes (fun s a => decide (s.Settled a)) unanswered M.init = true := by
    decide +kernel
  obtain ⟨s, hs, hchanges⟩ := Option.map_eq_some_iff.mp hexec
  exact ⟨s, hchanges, noneSuperseded_run
    (Machine.Run.of_passes (fun _ _ h => of_decide_eq_true h) hs hpasses)⟩

/-- The peer asks for the relay, and its answer through ICE arrives before the worker has fallen
    back. -/
def answeredThroughIce : List Act :=
  begun ++ [.post .relaySignal] ++ answered .ice ++ fallBack ++ [.work {}]

theorem not_noneSuperseded : ¬ ∀ (params : Params) (hasCertificate : Bool) (createdMs : Int)
    (as : List Act) (s : Session),
    (session params hasCertificate createdMs).Run Machine.anyStep as s → ∀ c ∈ s.changes, c.Fair := by
  intro h
  let M := session { iceTimeoutMs := 15000 } true 0
  have hexec : (M.exec answeredThroughIce M.init).map (fun s => s.changes) =
      some [⟨.failed, .handshake 0, 1, true⟩] := by
    decide +kernel
  obtain ⟨s, hs, hchanges⟩ := Option.map_eq_some_iff.mp hexec
  have fair := h _ _ _ _ s (Machine.run_of_exec hs) _ (hchanges ▸ List.mem_singleton_self _)
  have hcurrent : (0 : Handshake) = 1 := fair.current 0 rfl
  cases hcurrent

end CrossTransfer.Minirtc
