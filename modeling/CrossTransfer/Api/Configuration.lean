import CrossTransfer.Library.Machine
import CrossTransfer.Transfer.Manifest

/-! # Configuration updates

`core/src/api/config.cpp` and `Core::UpdateConfig`. A call of `UpdateConfig` copies the core's
configuration on the caller's thread, merges its JSON into the copy and posts the whole copy;
the event loop later assigns it to `cfg_`. Between the two other posted copies can be waiting,
so what a call was merged into need not be what its result will replace.

A field of the configuration is a `Setting`. `Merge` is a list of settings it takes from the
JSON, one after another, and `Parallel` says what two merges of one JSON have in common.
-/

namespace CrossTransfer.Api

open CrossTransfer.Library
open CrossTransfer.Transfer (Bytes Json ascii)

/-! ## Fields -/

@[ext]
structure Config where
  dataDir : Bytes := []
  logDir : Bytes := []
  logLevel : Bytes := ascii "info"
  serverHost : Bytes
  serverPort : Int32 := 443
  serverTls : Bool := true
  serverPath : Bytes := ascii "/ws"
  linkHost : Bytes
  turnMode : Bytes := ascii "auto"
  wsRelay : Bytes := ascii "auto"
  enableSrtp : Bool := true
  enableUpnp : Bool := false
  iceTimeoutMs : Int32 := 15000
  saveDir : Bytes := []
  shareMode : Bytes := ascii "once"
  shareTtlSec : Int32 := 600
  appVersion : Bytes := ascii "0.1.0"
  platform : Bytes := []
deriving DecidableEq, Repr

/-- What the build fixes: `CT_DEVELOPER_MODE`, `CT_SERVICE_HOST` and `CT_LINK_HOST`. -/
structure Build where
  developer : Bool
  serviceHost : Bytes
  linkHost : Bytes

/-- `Config::Config`. -/
def Config.initial (b : Build) : Config :=
  if b.developer && b.serviceHost.isEmpty then
    { serverHost := ascii "127.0.0.1", serverPort := 8080, serverTls := false, linkHost := b.linkHost }
  else { serverHost := b.serviceHost, linkHost := b.linkHost }

/-- The type of a field. -/
inductive Kind where
  | text
  | number
  | flag
deriving DecidableEq, Repr

namespace Kind

abbrev Value : Kind → Type
  | text => Bytes
  | number => Int32
  | flag => Bool

/-- `it->get<T>()`; `none` where it throws. An `int` is read from every number and from a
    boolean, and keeps the low 32 bits. -/
def get : (k : Kind) → Json → Option k.Value
  | text, .str s => some s
  | number, .unsigned n => some n.toUInt32.toInt32
  | number, .integer n => some (Int32.ofInt n)
  | number, .float whole => some (Int32.ofInt whole)
  | number, .bool b => some (if b then 1 else 0)
  | flag, .bool b => some b
  | _, _ => none

end Kind

inductive Setting where
  | dataDir
  | logDir
  | logLevel
  | serverHost
  | serverPort
  | serverTls
  | serverPath
  | linkHost
  | turnMode
  | wsRelay
  | enableSrtp
  | enableUpnp
  | iceTimeoutMs
  | saveDir
  | shareMode
  | shareTtlSec
  | appVersion
  | platform
deriving DecidableEq, Repr

namespace Setting

/-- The key of a field in its JSON object. -/
def key : Setting → String
  | dataDir => "data_dir"
  | logDir => "log_dir"
  | logLevel => "log_level"
  | serverHost => "host"
  | serverPort => "port"
  | serverTls => "tls"
  | serverPath => "path"
  | linkHost => "link_host"
  | turnMode => "turn_mode"
  | wsRelay => "ws_relay"
  | enableSrtp => "enable_srtp"
  | enableUpnp => "enable_upnp"
  | iceTimeoutMs => "ice_timeout_ms"
  | saveDir => "save_dir"
  | shareMode => "mode"
  | shareTtlSec => "ttl_sec"
  | appVersion => "app_version"
  | platform => "platform"

def kind : Setting → Kind
  | serverPort | iceTimeoutMs | shareTtlSec => .number
  | serverTls | enableSrtp | enableUpnp => .flag
  | dataDir | logDir | logLevel | serverHost | serverPath | linkHost | turnMode | wsRelay | saveDir
  | shareMode | appVersion | platform => .text

def get : (f : Setting) → Config → f.kind.Value
  | dataDir, c => c.dataDir
  | logDir, c => c.logDir
  | logLevel, c => c.logLevel
  | serverHost, c => c.serverHost
  | serverPort, c => c.serverPort
  | serverTls, c => c.serverTls
  | serverPath, c => c.serverPath
  | linkHost, c => c.linkHost
  | turnMode, c => c.turnMode
  | wsRelay, c => c.wsRelay
  | enableSrtp, c => c.enableSrtp
  | enableUpnp, c => c.enableUpnp
  | iceTimeoutMs, c => c.iceTimeoutMs
  | saveDir, c => c.saveDir
  | shareMode, c => c.shareMode
  | shareTtlSec, c => c.shareTtlSec
  | appVersion, c => c.appVersion
  | platform, c => c.platform

def set : (f : Setting) → f.kind.Value → Config → Config
  | dataDir, v, c => { c with dataDir := v }
  | logDir, v, c => { c with logDir := v }
  | logLevel, v, c => { c with logLevel := v }
  | serverHost, v, c => { c with serverHost := v }
  | serverPort, v, c => { c with serverPort := v }
  | serverTls, v, c => { c with serverTls := v }
  | serverPath, v, c => { c with serverPath := v }
  | linkHost, v, c => { c with linkHost := v }
  | turnMode, v, c => { c with turnMode := v }
  | wsRelay, v, c => { c with wsRelay := v }
  | enableSrtp, v, c => { c with enableSrtp := v }
  | enableUpnp, v, c => { c with enableUpnp := v }
  | iceTimeoutMs, v, c => { c with iceTimeoutMs := v }
  | saveDir, v, c => { c with saveDir := v }
  | shareMode, v, c => { c with shareMode := v }
  | shareTtlSec, v, c => { c with shareTtlSec := v }
  | appVersion, v, c => { c with appVersion := v }
  | platform, v, c => { c with platform := v }

@[simp] theorem get_set_self (f : Setting) (v : f.kind.Value) (c : Config) :
    f.get (f.set v c) = v := by
  cases f <;> rfl

theorem get_set_ne {f g : Setting} (h : g ≠ f) (v : f.kind.Value) (c : Config) :
    g.get (f.set v c) = g.get c := by
  cases f <;> cases g <;> first | rfl | exact absurd rfl h

end Setting

/-- A configuration is what its fields are. -/
theorem Config.ext_get {c d : Config} (h : ∀ f : Setting, f.get c = f.get d) : c = d := by
  apply Config.ext
  exacts [h .dataDir, h .logDir, h .logLevel, h .serverHost, h .serverPort, h .serverTls,
    h .serverPath, h .linkHost, h .turnMode, h .wsRelay, h .enableSrtp, h .enableUpnp,
    h .iceTimeoutMs, h .saveDir, h .shareMode, h .shareTtlSec, h .appVersion, h .platform]

/-! ## Merge -/

/-- A merge that gave up: what had been assigned by then, and the text of the error. -/
structure Refused where
  config : Config
  error : String
deriving DecidableEq, Repr

/-- `Take(j, key, &field, error)`: a missing key or `null` leaves the field. -/
def take (j : Json) (f : Setting) (c : Config) : Except Refused Config :=
  match j.find f.key with
  | none => .ok c
  | some .null => .ok c
  | some v =>
    match f.kind.get v with
    | some x => .ok (f.set x c)
    | none => .error ⟨c, "config." ++ f.key ++ " has the wrong type"⟩

def takeAll (j : Json) : List Setting → Config → Except Refused Config
  | [], c => .ok c
  | f :: fs, c =>
    match take j f c with
    | .ok c' => takeAll j fs c'
    | .error e => .error e

/-- The settings of a nested object; anything else under its key is ignored. -/
def takeSection (j : Json) (name : String) (fs : List Setting) (c : Config) :
    Except Refused Config :=
  match j.find name with
  | some s => if s.isObject then takeAll s fs c else .ok c
  | none => .ok c

def logSettings : List Setting := [.dataDir, .logDir, .logLevel]

def peerSettings : List Setting :=
  [.linkHost, .turnMode, .wsRelay, .enableSrtp, .enableUpnp, .iceTimeoutMs]

def userSettings : List Setting := [.saveDir, .appVersion, .platform]

def serverSettings : List Setting := [.serverHost, .serverPort, .serverTls, .serverPath]

def shareSettings : List Setting := [.shareMode, .shareTtlSec]

def switches : List Bytes := [ascii "auto", ascii "force", ascii "off"]

def shareModes : List Bytes := [ascii "once", ascii "open"]

/-- An empty path is the default one. -/
def withPath (c : Config) : Config :=
  if c.serverPath.isEmpty then { c with serverPath := ascii "/ws" } else c

/-- The end of `Merge`: the values of the enumerations are checked. -/
def checked (c : Config) : Except Refused Config :=
  if c.turnMode ∉ switches then .error ⟨c, "config.turn_mode must be auto|force|off"⟩
  else if c.wsRelay ∉ switches then .error ⟨c, "config.ws_relay must be auto|force|off"⟩
  else if c.shareMode ∉ shareModes then .error ⟨c, "config.share.mode must be once|open"⟩
  else .ok (withPath c)

/-- `#if CT_DEVELOPER_MODE`. -/
def inDeveloper (b : Build) (run : Config → Except Refused Config) (c : Config) :
    Except Refused Config :=
  if b.developer then run c else .ok c

/-- `Config::Merge` up to its last checks. -/
def takes (b : Build) (j : Json) (c : Config) : Except Refused Config := do
  let c ← takeAll j logSettings c
  let c ← inDeveloper b (takeAll j peerSettings) c
  let c ← takeAll j userSettings c
  let c ← inDeveloper b (takeSection j "server" serverSettings) c
  takeSection j "share" shareSettings c

/-- `Config::Merge`. -/
def merge (b : Build) (j : Json) (c : Config) : Except Refused Config :=
  if j.isObject then takes b j c >>= checked
  else .error ⟨c, "config must be an object"⟩

/-- `Config::HasServiceOverrides`. -/
def hasServiceOverrides (j : Json) : Bool :=
  ["server", "link_host", "turn_mode", "ws_relay", "enable_srtp", "enable_upnp",
    "ice_timeout_ms"].any fun key => (j.find key).isSome

/-- The configuration `Core::Create` starts with: what was saved underneath, the caller's values
    on top. `logs` and `received` are the directories below the data directory. -/
def create (b : Build) (saved config : Json) (logs received : Bytes) : Except String Config :=
  match merge b config (Config.initial b) with
  | .error e => .error e.error
  | .ok cfg =>
    if cfg.dataDir.isEmpty then .error "config.data_dir is required"
    else
      -- a saved configuration that does not merge leaves what it had assigned
      let merged := match merge b saved (Config.initial b) with
        | .ok c => c
        | .error e => e.config
      match merge b config merged with
      | .error e => .error e.error
      | .ok c => .ok { c with
          logDir := if c.logDir.isEmpty then logs else c.logDir
          saveDir := if c.saveDir.isEmpty then received else c.saveDir }

/-! ## What a merge assigns -/

/-- The key of `f` is there and not `null`. -/
def given (j : Json) (f : Setting) : Bool :=
  match j.find f.key with
  | none => false
  | some .null => false
  | some _ => true

def givenIn (j : Json) (name : String) (fs : List Setting) : List Setting :=
  match j.find name with
  | some s => if s.isObject then fs.filter (given s) else []
  | none => []

/-- The settings that merging `j` assigns. -/
def assigned (b : Build) (j : Json) : List Setting :=
  logSettings.filter (given j) ++ (if b.developer then peerSettings.filter (given j) else []) ++
    userSettings.filter (given j) ++
    (if b.developer then givenIn j "server" serverSettings else []) ++
    givenIn j "share" shareSettings

/-- From `c` and from `d` the settings `fs` were assigned, the same values to both, and no
    others. -/
def Parallel (fs : List Setting) (c d c' d' : Config) : Prop :=
  ∀ f : Setting, (f ∈ fs → f.get c' = f.get d') ∧
    (f ∉ fs → f.get c' = f.get c ∧ f.get d' = f.get d)

namespace Parallel

theorem none (c d : Config) : Parallel [] c d c d :=
  fun _ => ⟨fun h => absurd h List.not_mem_nil, fun _ => ⟨rfl, rfl⟩⟩

theorem trans {fs gs : List Setting} {c d c₁ d₁ c₂ d₂ : Config} (h : Parallel fs c d c₁ d₁)
    (h' : Parallel gs c₁ d₁ c₂ d₂) : Parallel (fs ++ gs) c d c₂ d₂ := by
  intro f
  by_cases hg : f ∈ gs
  · exact ⟨fun _ => (h' f).1 hg, fun hn => absurd (List.mem_append_right fs hg) hn⟩
  · -- the later settings leave `f` as the earlier ones have put it
    obtain ⟨hc, hd⟩ := (h' f).2 hg
    rw [hc, hd, List.mem_append, or_iff_left hg]
    exact h f

/-- The results are equal exactly when the settings that were not assigned are. -/
theorem eq_iff {fs : List Setting} {c d c' d' : Config} (h : Parallel fs c d c' d') :
    c' = d' ↔ ∀ f, f ∉ fs → f.get c = f.get d := by
  constructor
  · rintro rfl f hf
    obtain ⟨hc, hd⟩ := (h f).2 hf
    exact hc.symm.trans hd
  · intro hsame
    apply Config.ext_get
    intro f
    by_cases hf : f ∈ fs
    · exact (h f).1 hf
    · obtain ⟨hc, hd⟩ := (h f).2 hf
      rw [hc, hd]
      exact hsame f hf

end Parallel

/-- Whatever configuration `run` starts from, it assigns the settings `fs`, always the same values
    to them, or fails from all of them. -/
def Assigns (fs : List Setting) (run : Config → Except Refused Config) : Prop :=
  ∀ c d c', run c = .ok c' → ∃ d', run d = .ok d' ∧ Parallel fs c d c' d'

theorem take_assigns (j : Json) (f : Setting) : Assigns ([f].filter (given j)) (take j f) := by
  intro c d c' h
  have hleft (hg : given j f = false) (hc : c = c') (hd : take j f d = .ok d) :
      ∃ d', take j f d = .ok d' ∧ Parallel ([f].filter (given j)) c d c' d' := by
    refine ⟨d, hd, ?_⟩
    simpa [hg, ← hc] using Parallel.none c d
  cases hfind : j.find f.key with
  | none =>
    apply hleft <;> simp_all [take, given]
  | some v =>
    by_cases hv : v = .null
    · subst hv
      apply hleft <;> simp_all [take, given]
    · have htake (c : Config) : take j f c = match f.kind.get v with
          | some x => .ok (f.set x c)
          | none => .error ⟨c, "config." ++ f.key ++ " has the wrong type"⟩ := by
        cases v <;> simp_all [take]
      have hgiven : given j f = true := by
        cases v <;> simp_all [given]
      rw [htake] at h
      cases hx : f.kind.get v with
      | none => simp [hx] at h
      | some x =>
        simp only [hx, Except.ok.injEq] at h
        subst h
        refine ⟨f.set x d, by rw [htake, hx], fun g => ?_⟩
        by_cases hg : g = f
        · subst hg
          simp [hgiven]
        · simp [hgiven, hg, Setting.get_set_ne hg]

namespace Assigns

variable {fs gs : List Setting} {run next : Config → Except Refused Config}

theorem pure : Assigns [] pure := by
  intro c d c' h
  obtain rfl : c = c' := Except.ok.inj h
  exact ⟨d, rfl, Parallel.none c d⟩

theorem bind (h : Assigns fs run) (h' : Assigns gs next) :
    Assigns (fs ++ gs) fun c => run c >>= next := by
  intro c d c' hc
  cases hrun : run c with
  | error e => simp [hrun, Bind.bind, Except.bind] at hc
  | ok c₁ =>
    simp only [hrun, Bind.bind, Except.bind] at hc
    obtain ⟨d₁, hd, hfirst⟩ := h c d c₁ hrun
    obtain ⟨d', hd', hrest⟩ := h' c₁ d₁ c' hc
    exact ⟨d', by simpa [hd, Bind.bind, Except.bind] using hd', hfirst.trans hrest⟩

theorem inDeveloper (b : Build) (h : Assigns fs run) :
    Assigns (if b.developer then fs else []) (inDeveloper b run) := by
  intro c d c' hc
  cases hb : b.developer with
  | false =>
    simp only [Api.inDeveloper, hb] at hc ⊢
    exact pure c d c' hc
  | true =>
    simp only [Api.inDeveloper, hb, if_true] at hc ⊢
    exact h c d c' hc

end Assigns

theorem takeAll_assigns (j : Json) (fs : List Setting) :
    Assigns (fs.filter (given j)) (takeAll j fs) := by
  induction fs with
  | nil => exact Assigns.pure
  | cons f fs ih =>
    have hcons : takeAll j (f :: fs) = fun c => take j f c >>= takeAll j fs := by
      funext c
      cases hc : take j f c <;> simp [takeAll, hc, Bind.bind, Except.bind]
    rw [hcons, ← List.singleton_append, List.filter_append]
    exact (take_assigns j f).bind ih

theorem takeSection_assigns (j : Json) (name : String) (fs : List Setting) :
    Assigns (givenIn j name fs) (takeSection j name fs) := by
  intro c d c' h
  cases hfind : j.find name with
  | none =>
    simp only [takeSection, givenIn, hfind] at h ⊢
    exact Assigns.pure c d c' h
  | some s =>
    cases hobj : s.isObject with
    | false =>
      simp only [takeSection, givenIn, hfind, hobj] at h ⊢
      exact Assigns.pure c d c' h
    | true =>
      simp only [takeSection, givenIn, hfind, hobj, if_true] at h ⊢
      exact takeAll_assigns s fs c d c' h

theorem takes_assigns (b : Build) (j : Json) : Assigns (assigned b j) (takes b j) := by
  have h := (takeAll_assigns j logSettings).bind <|
    (Assigns.inDeveloper b (takeAll_assigns j peerSettings)).bind <|
    (takeAll_assigns j userSettings).bind <|
    (Assigns.inDeveloper b (takeSection_assigns j "server" serverSettings)).bind <|
    takeSection_assigns j "share" shareSettings
  rw [assigned]
  simp only [List.append_assoc]
  exact h

theorem merge_ok {b : Build} {j : Json} {c c' : Config} (h : merge b j c = .ok c') :
    ∃ c₁, takes b j c = .ok c₁ ∧ checked c₁ = .ok c' := by
  by_cases hj : j.isObject
  · rw [merge, if_pos hj] at h
    cases htakes : takes b j c with
    | error e => simp [htakes, Bind.bind, Except.bind] at h
    | ok c₁ => exact ⟨c₁, rfl, by simpa [htakes, Bind.bind, Except.bind] using h⟩
  · simp [merge, hj] at h

/-- The configurations that merges result in. -/
structure Config.Sound (c : Config) : Prop where
  turnMode : c.turnMode ∈ switches
  wsRelay : c.wsRelay ∈ switches
  shareMode : c.shareMode ∈ shareModes
  serverPath : c.serverPath ≠ []

theorem checked_ok {c c' : Config} : checked c = .ok c' ↔
    c.turnMode ∈ switches ∧ c.wsRelay ∈ switches ∧ c.shareMode ∈ shareModes ∧ withPath c = c' := by
  by_cases ht : c.turnMode ∈ switches <;> by_cases hw : c.wsRelay ∈ switches <;>
    by_cases hs : c.shareMode ∈ shareModes <;> simp [checked, ht, hw, hs]

theorem withPath_of_ne {c : Config} (h : c.serverPath ≠ []) : withPath c = c := by
  simp [withPath, h]

theorem get_withPath_of_ne {f : Setting} (hf : f ≠ .serverPath) (c : Config) :
    f.get (withPath c) = f.get c := by
  cases hc : c.serverPath.isEmpty with
  | false => simp [withPath, hc]
  | true =>
    simp only [withPath, hc, if_true]
    exact Setting.get_set_ne hf (ascii "/ws") c

theorem serverPath_withPath (c : Config) : (withPath c).serverPath =
    if c.serverPath.isEmpty then ascii "/ws" else c.serverPath := by
  cases hc : c.serverPath.isEmpty <;> simp [withPath, hc]

theorem withPath_serverPath_ne (c : Config) : (withPath c).serverPath ≠ [] := by
  rw [serverPath_withPath]
  split
  · decide
  · rename_i hc
    simpa using hc

theorem merge_sound {b : Build} {j : Json} {c c' : Config} (h : merge b j c = .ok c') :
    c'.Sound := by
  obtain ⟨c₁, -, hchecked⟩ := merge_ok h
  obtain ⟨hturn, hrelay, hmode, rfl⟩ := checked_ok.mp hchecked
  constructor
  · rwa [show (withPath c₁).turnMode = c₁.turnMode from get_withPath_of_ne (f := .turnMode) (by decide) c₁]
  · rwa [show (withPath c₁).wsRelay = c₁.wsRelay from get_withPath_of_ne (f := .wsRelay) (by decide) c₁]
  · rwa [show (withPath c₁).shareMode = c₁.shareMode from
      get_withPath_of_ne (f := .shareMode) (by decide) c₁]
  · exact withPath_serverPath_ne c₁

/-- From a sound configuration a merge succeeds as from any other, and assigns the same. -/
theorem merge_parallel {b : Build} {j : Json} {c c' d : Config} (h : merge b j c = .ok c')
    (hc : c.Sound) (hd : d.Sound) :
    ∃ d', merge b j d = .ok d' ∧ Parallel (assigned b j) c d c' d' := by
  have hobj : j.isObject = true := by
    by_contra hj
    simp [merge, hj] at h
  obtain ⟨c₁, htakes, hchecked⟩ := merge_ok h
  obtain ⟨hturn, hrelay, hmode, rfl⟩ := checked_ok.mp hchecked
  obtain ⟨d₁, htakes', hpar⟩ := takes_assigns b j c d c₁ htakes
  -- what passed the checks on one side was assigned on both, or was there before
  have hcarry (f : Setting) {ok : f.kind.Value → Prop} (hc₁ : ok (f.get c₁)) (hok : ok (f.get d)) :
      ok (f.get d₁) := by
    by_cases hf : f ∈ assigned b j
    · rwa [← (hpar f).1 hf]
    · rwa [((hpar f).2 hf).2]
  have hchecked' : checked d₁ = .ok (withPath d₁) :=
    checked_ok.mpr ⟨hcarry .turnMode hturn hd.turnMode, hcarry .wsRelay hrelay hd.wsRelay,
      hcarry .shareMode hmode hd.shareMode, rfl⟩
  refine ⟨withPath d₁, ?_, fun f => ?_⟩
  · simpa [merge, hobj, htakes', Bind.bind, Except.bind] using hchecked'
  · by_cases hf : f = .serverPath
    · subst hf
      constructor
      · intro hpath
        have hsame : c₁.serverPath = d₁.serverPath := (hpar .serverPath).1 hpath
        show (withPath c₁).serverPath = (withPath d₁).serverPath
        rw [serverPath_withPath, serverPath_withPath, hsame]
      · -- a path that no one assigned is not empty, and stays
        intro hpath
        obtain ⟨hkeep, hkeep'⟩ := (hpar .serverPath).2 hpath
        have hne : c₁.serverPath ≠ [] := fun h => hc.serverPath (hkeep.symm.trans h)
        have hne' : d₁.serverPath ≠ [] := fun h => hd.serverPath (hkeep'.symm.trans h)
        rw [withPath_of_ne hne, withPath_of_ne hne']
        exact ⟨hkeep, hkeep'⟩
    · rw [get_withPath_of_ne hf, get_withPath_of_ne hf]
      exact hpar f

theorem create_sound {b : Build} {saved config : Json} {logs received : Bytes} {c : Config}
    (h : create b saved config logs received = .ok c) : c.Sound := by
  simp only [create] at h
  split at h
  · contradiction
  · split at h
    · contradiction
    · split at h
      · contradiction
      · rename_i hmerge
        obtain rfl := Except.ok.inj h
        obtain ⟨hturn, hrelay, hmode, hpath⟩ := merge_sound hmerge
        exact ⟨hturn, hrelay, hmode, hpath⟩

/-! ## Calls and tasks -/

/-- `Core::UpdateConfig` on the caller's thread: the configuration it posts, or the text of the
    error it returns with `CT_ERR_INVALID_ARG`. -/
def updateConfig (b : Build) (j : Json) (cfg : Config) : Except String Config :=
  if !b.developer && hasServiceOverrides j then
    .error "service settings are managed by the publisher"
  else
    match merge b j cfg with
    | .ok next => .ok next
    | .error e => .error e.error

structure Updates where
  cfg : Config
  /-- The copies that were posted and not yet assigned, oldest first. -/
  posted : List Config := []
  /-- The copy a call has merged into and not yet posted. -/
  merged : Option Config := none
  /-- What the successful calls so far were given, in call order. -/
  accepted : List Json := []

namespace Updates

inductive Act where
  /-- A call copies `cfg_` and merges `j` into the copy. -/
  | call (j : Json)
  /-- The call posts its copy and returns. -/
  | post
  /-- The event loop runs the oldest task. -/
  | task

def step (b : Build) (u : Updates) : Act → Option Updates
  | .call j =>
    if u.merged.isSome then none
    else
      match updateConfig b j u.cfg with
      | .ok next => some { u with merged := some next, accepted := u.accepted ++ [j] }
      | .error _ => some u
  | .post => u.merged.map fun next => { u with posted := u.posted ++ [next], merged := none }
  | .task =>
    match u.posted with
    | [] => none
    | next :: rest => some { u with cfg := next, posted := rest }

/-- The calls of one thread and the event loop, from the configuration `c` on. -/
def updates (b : Build) (c : Config) : Machine Updates Act := ⟨{ cfg := c }, step b⟩

/-- All calls have returned and all tasks have run. -/
def Quiet (u : Updates) : Prop := u.posted = [] ∧ u.merged = none

def waiting (u : Updates) : List Config := u.posted ++ u.merged.toList

/-- The configuration when the copies that are waiting have been assigned. -/
def settled (u : Updates) : Config := u.waiting.getLast?.getD u.cfg

/-- The JSON of the calls merged one after another. -/
def mergeAll (b : Build) : List Json → Config → Except Refused Config
  | [], c => .ok c
  | j :: js, c => merge b j c >>= mergeAll b js

/-- Once the call returns and the tasks run, without further calls, the configuration is `c` with
    every call's JSON merged in call order. -/
def NoneLost (b : Build) (c : Config) (u : Updates) : Prop :=
  ∀ rest u', (∀ a ∈ rest, a = Act.post ∨ a = Act.task) → (updates b c).exec rest u = some u' →
    u'.Quiet → mergeAll b u'.accepted c = .ok u'.cfg

/-- A call that succeeds finds `cfg_` to agree, on every setting the call does not assign, with
    the copy posted last. -/
def Current (b : Build) (u : Updates) : Act → Prop
  | .call j => (updateConfig b j u.cfg).isOk = true →
      ∀ f : Setting, f ∉ assigned b j → f.get u.cfg = f.get u.settled
  | .post | .task => True

variable {b : Build} {c : Config} {u u' : Updates}

theorem settled_mem (u : Updates) : u.settled = u.cfg ∨ u.settled ∈ u.waiting := by
  cases hlast : u.waiting.getLast? with
  | none => simp [settled, hlast]
  | some d => simpa [settled, hlast] using Or.inr (List.mem_of_getLast? hlast)

/-- Posting and assigning copies does not change where they lead. -/
theorem step_settled {a : Act} (ha : a = .post ∨ a = .task) (h : step b u a = some u') :
    u'.settled = u.settled ∧ u'.accepted = u.accepted := by
  obtain rfl | rfl := ha
  · obtain ⟨next, hmerged, rfl⟩ : ∃ next, u.merged = some next ∧ _ = u' := by
      simpa [step] using h
    simp [settled, waiting, hmerged]
  · cases hposted : u.posted with
    | nil => simp [step, hposted] at h
    | cons next rest =>
      obtain rfl : _ = u' := by simpa [step, hposted] using h
      simp only [settled, waiting, hposted, List.cons_append, and_true]
      cases rest ++ u.merged.toList <;> simp [List.getLast?_cons]

theorem exec_settled {rest : List Act} (hrest : ∀ a ∈ rest, a = Act.post ∨ a = Act.task)
    (h : (updates b c).exec rest u = some u') : u'.settled = u.settled ∧ u'.accepted = u.accepted := by
  induction rest generalizing u with
  | nil =>
    obtain rfl : u = u' := Option.some.inj h
    exact ⟨rfl, rfl⟩
  | cons a rest ih =>
    simp only [Machine.exec, Option.bind_eq_some_iff] at h
    obtain ⟨mid, hstep, hexec⟩ := h
    rw [List.forall_mem_cons] at hrest
    obtain ⟨hs, hacc⟩ := step_settled hrest.1 hstep
    obtain ⟨hs', hacc'⟩ := ih hrest.2 hexec
    exact ⟨hs'.trans hs, hacc'.trans hacc⟩

/-- The tasks that are posted can all be run. -/
theorem exec_tasks (hmerged : u.merged = none) : ∃ u',
    (updates b c).exec (List.replicate u.posted.length .task) u = some u' ∧ u'.Quiet := by
  generalize hposted : u.posted = posted
  induction posted generalizing u with
  | nil => exact ⟨u, rfl, hposted, hmerged⟩
  | cons next rest ih =>
    obtain ⟨u', hexec, hquiet⟩ := ih (u := { u with cfg := next, posted := rest }) hmerged rfl
    refine ⟨u', ?_, hquiet⟩
    simpa [List.replicate_succ, Machine.exec, updates, step, hposted] using hexec

theorem exec_quiet (b : Build) (c : Config) (u : Updates) : ∃ rest u',
    (∀ a ∈ rest, a = Act.post ∨ a = Act.task) ∧ (updates b c).exec rest u = some u' ∧ u'.Quiet := by
  have htasks (n : Nat) : ∀ a ∈ List.replicate n Act.task, a = Act.post ∨ a = Act.task :=
    fun a ha => .inr (List.eq_of_mem_replicate ha)
  cases hmerged : u.merged with
  | none =>
    obtain ⟨u', hexec, hquiet⟩ := exec_tasks (b := b) (c := c) hmerged
    exact ⟨_, u', htasks _, hexec, hquiet⟩
  | some next =>
    -- the call returns first
    obtain ⟨u', hexec, hquiet⟩ := exec_tasks (b := b) (c := c)
      (u := { u with posted := u.posted ++ [next], merged := none }) rfl
    refine ⟨.post :: List.replicate (u.posted ++ [next]).length .task, u', ?_, ?_, hquiet⟩
    · exact List.forall_mem_cons.mpr ⟨.inl rfl, htasks _⟩
    · simpa [Machine.exec, updates, step, hmerged] using hexec

theorem Quiet.settled (h : u.Quiet) : u.settled = u.cfg := by
  simp [Updates.settled, waiting, h.1, h.2]

theorem noneLost_iff : NoneLost b c u ↔ mergeAll b u.accepted c = .ok u.settled := by
  constructor
  · intro h
    obtain ⟨rest, u', hrest, hexec, hquiet⟩ := exec_quiet b c u
    obtain ⟨hs, hacc⟩ := exec_settled hrest hexec
    rw [← hs, ← hacc, hquiet.settled]
    exact h rest u' hrest hexec hquiet
  · intro h rest u' hrest hexec hquiet
    obtain ⟨hs, hacc⟩ := exec_settled hrest hexec
    rw [← hquiet.settled, hs, hacc]
    exact h

theorem mergeAll_snoc (b : Build) (js : List Json) (j : Json) (c : Config) :
    mergeAll b (js ++ [j]) c = mergeAll b js c >>= merge b j := by
  induction js generalizing c with
  | nil =>
    cases h : merge b j c <;> simp [mergeAll, h, Bind.bind, Except.bind]
  | cons i js ih =>
    cases h : merge b i c with
    | error e => simp [mergeAll, h, Bind.bind, Except.bind]
    | ok c' => simpa [mergeAll, h, Bind.bind, Except.bind] using ih c'

theorem updateConfig_ok {j : Json} {cfg next : Config} (h : updateConfig b j cfg = .ok next) :
    merge b j cfg = .ok next := by
  cases hown : !b.developer && hasServiceOverrides j with
  | true => simp [updateConfig, hown] at h
  | false =>
    cases hmerge : merge b j cfg with
    | ok c' => simpa [updateConfig, hown, hmerge] using h
    | error e => simp [updateConfig, hown, hmerge] at h

/-- The configurations in play are results of merges. -/
def AllSound (u : Updates) : Prop := u.cfg.Sound ∧ ∀ d ∈ u.waiting, d.Sound

theorem AllSound.settled (h : u.AllSound) : u.settled.Sound := by
  obtain heq | hmem := settled_mem u
  · rw [heq]
    exact h.1
  · exact h.2 _ hmem

/-- A call that is refused changes nothing; the others leave their copy to be posted. -/
theorem step_call {j : Json} (h : step b u (.call j) = some u') :
    (updateConfig b j u.cfg).isOk = false ∧ u' = u ∨
      ∃ next, updateConfig b j u.cfg = .ok next ∧ u.merged = none ∧
        u' = { u with merged := some next, accepted := u.accepted ++ [j] } := by
  cases hmerged : u.merged with
  | some d => simp [step, hmerged] at h
  | none =>
    cases hcall : updateConfig b j u.cfg with
    | error e =>
      left
      exact ⟨rfl, by simpa [step, hmerged, hcall] using h.symm⟩
    | ok next =>
      right
      exact ⟨next, rfl, rfl, by simpa [step, hmerged, hcall] using h.symm⟩

theorem step_sound {a : Act} (hs : u.AllSound) (h : step b u a = some u') : u'.AllSound := by
  obtain ⟨hcfg, hwaiting⟩ := hs
  cases a with
  | call j =>
    obtain ⟨-, rfl⟩ | ⟨next, hcall, hmerged, rfl⟩ := step_call h
    · exact ⟨hcfg, hwaiting⟩
    · refine ⟨hcfg, fun d hd => ?_⟩
      have hposted : ∀ d ∈ u.posted, d.Sound := fun d hd => hwaiting d (by simp [waiting, hd])
      obtain hd | rfl : d ∈ u.posted ∨ d = next := by simpa [waiting] using hd
      · exact hposted d hd
      · exact merge_sound (updateConfig_ok hcall)
  | post =>
    obtain ⟨next, hmerged, rfl⟩ : ∃ next, u.merged = some next ∧ _ = u' := by
      simpa [step] using h
    refine ⟨hcfg, fun d hd => hwaiting d ?_⟩
    simpa [waiting, hmerged] using hd
  | task =>
    cases hposted : u.posted with
    | nil => simp [step, hposted] at h
    | cons next rest =>
      obtain rfl : _ = u' := by simpa [step, hposted] using h
      refine ⟨hwaiting next (by simp [waiting, hposted]), fun d hd => hwaiting d ?_⟩
      simp only [waiting, hposted] at hd ⊢
      exact List.mem_cons_of_mem next hd

/-- A call keeps the law exactly when it finds `cfg_` current. -/
theorem noneLost_step {a : Act} (hs : u.AllSound) (hlost : NoneLost b c u)
    (h : step b u a = some u') : NoneLost b c u' ↔ Current b u a := by
  rw [noneLost_iff] at hlost ⊢
  cases a with
  | post | task =>
    obtain ⟨hsettled, hacc⟩ := step_settled (by simp) h
    simp [Current, hsettled, hacc, hlost]
  | call j =>
    obtain ⟨hrefused, rfl⟩ | ⟨next, hcall, hmerged, rfl⟩ := step_call h
    · simp [Current, hrefused, hlost]
    · have hmerge := updateConfig_ok hcall
      obtain ⟨d', hmerge', hpar⟩ := merge_parallel hmerge hs.1 hs.settled
      have hall : mergeAll b (u.accepted ++ [j]) c = .ok d' := by
        rw [mergeAll_snoc, hlost]
        exact hmerge'
      have hlast : settled { u with merged := some next, accepted := u.accepted ++ [j] } = next := by
        simp [settled, waiting]
      rw [hlast, hall, Except.ok.injEq, eq_comm, hpar.eq_iff]
      simp [Current, hcall, Except.isOk, Except.toBool]

theorem run_sound {as : List Act} (hc : c.Sound) (run : (updates b c).Run Machine.anyStep as u) :
    u.AllSound :=
  run.invariant AllSound ⟨hc, fun _ hd => absurd hd List.not_mem_nil⟩
    fun _ _ _ hs _ hstep => step_sound hs hstep

/-- No update is lost in any state of a run exactly when every call of it finds `cfg_` current:
    when no copy is waiting, or none that the call's own copy would revert. -/
theorem noneLost_run {saved config : Json} {logs received : Bytes} {as : List Act}
    (hcreate : create b saved config logs received = .ok c)
    (run : (updates b c).Run Machine.anyStep as u) :
    (∀ t, (updates b c).Visited as t → NoneLost b c t) ↔ (updates b c).Run (Current b) as u := by
  have hc := create_sound hcreate
  apply Machine.Run.forall_visited_iff _ _ run
  · rw [noneLost_iff]
    rfl
  · intro as t a t' hrun hlost hstep
    exact noneLost_step (run_sound hc hrun) hlost hstep

/-! Two calls, for the directory of received files and for the name of the platform. -/

def commercialBuild : Build := ⟨false, ascii "service", ascii "link"⟩

def preference (key value : String) : Json := .obj [(ascii key, .str (ascii value))]

def startConfig : Config :=
  { Config.initial commercialBuild with
    dataDir := ascii "d", logDir := ascii "d/logs", saveDir := ascii "d/received" }

theorem create_startConfig :
    create commercialBuild (.obj []) (preference "data_dir" "d") (ascii "d/logs")
      (ascii "d/received") = .ok startConfig := by
  rfl

def saveCall : Act := .call (preference "save_dir" "s")

def platformCall : Act := .call (preference "platform" "p")

def bothUpdates : Updates :=
  ⟨{ startConfig with saveDir := ascii "s", platform := ascii "p" }, [], none,
    [preference "save_dir" "s", preference "platform" "p"]⟩

theorem exec_saveThenPlatform : (updates commercialBuild startConfig).exec
    [saveCall, .post, .task, platformCall, .post, .task]
    (updates commercialBuild startConfig).init = some bothUpdates := by
  rfl

/-- The first update is assigned before the second call: both are kept. -/
theorem noneLost_saveThenPlatform : bothUpdates.Quiet ∧
    ((∀ t, (updates commercialBuild startConfig).Visited
        [saveCall, .post, .task, platformCall, .post, .task] t →
        NoneLost commercialBuild startConfig t) ↔
      (updates commercialBuild startConfig).Run (Current commercialBuild)
        [saveCall, .post, .task, platformCall, .post, .task] bothUpdates) :=
  ⟨⟨rfl, rfl⟩, noneLost_run create_startConfig (Machine.run_of_exec exec_saveThenPlatform)⟩

/-- The second call copies `cfg_` while the first update is posted: the directory is reverted. -/
theorem not_noneLost : ¬ ∀ (b : Build) (saved config : Json) (logs received : Bytes) (c : Config)
    (as : List Act) (u : Updates), create b saved config logs received = .ok c →
    (updates b c).Run Machine.anyStep as u → u.Quiet → mergeAll b u.accepted c = .ok u.cfg := by
  intro h
  have hexec : (updates commercialBuild startConfig).exec
      [saveCall, .post, platformCall, .post, .task, .task]
      (updates commercialBuild startConfig).init =
      some { bothUpdates with cfg := { startConfig with platform := ascii "p" } } := by
    rfl
  have hlaw := h _ _ _ _ _ _ _ _ create_startConfig (Machine.run_of_exec hexec) ⟨rfl, rfl⟩
  have hboth : mergeAll commercialBuild bothUpdates.accepted startConfig = .ok bothUpdates.cfg := by
    rfl
  have hdir := congrArg Config.saveDir (Except.ok.inj (hboth.symm.trans hlaw))
  revert hdir
  decide

end Updates

end CrossTransfer.Api
