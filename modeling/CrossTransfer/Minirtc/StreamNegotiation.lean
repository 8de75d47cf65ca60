import CrossTransfer.Minirtc.DataStreams
import Mathlib.Data.List.Dedup

/-! # Negotiating the data streams

`ParseRemoteStreams` counts the lines that name a local stream and compares their number with that of
the streams; which streams they name it does not ask. So a line that is there twice can stand for one
that is missing, and two streams may get the same SSRC. What has been negotiated is complete if and
only if no name and no SSRC comes twice (`negotiation`).
-/

namespace CrossTransfer.Minirtc

open CrossTransfer.Library
open CrossTransfer.Transfer
open CrossTransfer.Share

namespace DataTransport

variable {t t' : DataTransport} {name : Bytes} {ssrc : UInt32} {lines : List Bytes}
  {pairs : List (Bytes × UInt32)}

/-! ## What the lines say -/

/-- The lines that name a stream of the transport. -/
def named (t : DataTransport) (lines : List Bytes) : List (Bytes × UInt32) :=
  lines.filterMap fun line =>
    match readLine line with
    | .stream name ssrc _ => t.streams[name]?.map fun _ => (name, ssrc)
    | _ => none

/-- A line for which the description is refused: it is malformed, or the reliability disagrees. -/
def refuses (t : DataTransport) (line : Bytes) : Bool :=
  match readLine line with
  | .other => false
  | .malformed => true
  | .stream name _ reliable => t.streams[name]?.any fun s => decide (reliable ≠ 0) != s.reliable

/-- The streams of both are configured alike. -/
def SameStreams (t t' : DataTransport) : Prop :=
  ∀ name : Bytes, t.streams[name]?.map (·.reliable) = t'.streams[name]?.map (·.reliable)

theorem sameStreams_assign (t : DataTransport) (name : Bytes) (ssrc : UInt32) :
    SameStreams (t.assign name ssrc) t := by
  intro other
  rw [assign, OrderedMap.get_modify]
  split
  · rw [Option.map_map]
    rfl
  · rfl

theorem named_congr (h : SameStreams t t') (lines : List Bytes) : t.named lines = t'.named lines := by
  have hmap : ∀ (name : Bytes) (ssrc : UInt32), (t.streams[name]?.map fun _ => (name, ssrc)) =
      t'.streams[name]?.map fun _ => (name, ssrc) := by
    intro name ssrc
    have hname := congrArg (Option.map fun _ => (name, ssrc)) (h name)
    rwa [Option.map_map, Option.map_map] at hname
  unfold named
  congr 1
  funext line
  cases readLine line <;> simp [hmap]

theorem refuses_congr (h : SameStreams t t') (line : Bytes) : t.refuses line = t'.refuses line := by
  have hany : ∀ (name : Bytes) (reliable : Int),
      (t.streams[name]?.any fun s => decide (reliable ≠ 0) != s.reliable) =
        t'.streams[name]?.any fun s => decide (reliable ≠ 0) != s.reliable := by
    intro name reliable
    have hname := congrArg (Option.any fun r => decide (reliable ≠ 0) != r) (h name)
    rwa [Option.any_map, Option.any_map] at hname
  unfold refuses
  cases readLine line with
  | other | malformed => rfl
  | stream name ssrc reliable => exact hany name reliable

/-! ## What ParseRemoteStreams does -/

def assignAll (t : DataTransport) (pairs : List (Bytes × UInt32)) : DataTransport :=
  pairs.foldl (fun t (name, ssrc) => t.assign name ssrc) t

/-- The loop has counted and assigned the lines that name a local stream, or it has refused one. -/
theorem parseLines_eq (lines : List Bytes) (matched : Nat) (t : DataTransport) :
    (lines.any t.refuses = true → (parseLines lines matched t).1 = false) ∧
    (lines.any t.refuses = false → parseLines lines matched t =
      (matched + (t.named lines).length == t.streams.size, t.assignAll (t.named lines))) := by
  induction lines generalizing matched t with
  | nil => simp [parseLines, named, assignAll]
  | cons line lines ih =>
    cases hread : readLine line with
    | other =>
      have hrefuses : t.refuses line = false := by rw [refuses, hread]
      have hnamed : t.named (line :: lines) = t.named lines := by simp [named, hread]
      rw [List.any_cons, hrefuses, Bool.false_or, hnamed, parseLines, hread]
      exact ih matched t
    | malformed =>
      have hrefuses : t.refuses line = true := by rw [refuses, hread]
      simp [hrefuses, parseLines, hread]
    | stream name ssrc reliable =>
      cases hget : t.streams[name]? with
      | none =>
        have hrefuses : t.refuses line = false := by simp [refuses, hread, hget]
        have hnamed : t.named (line :: lines) = t.named lines := by simp [named, hread, hget]
        have hparse : parseLines (line :: lines) matched t = parseLines lines matched t := by
          simp [parseLines, hread, hget]
        rw [List.any_cons, hrefuses, Bool.false_or, hnamed, hparse]
        exact ih matched t
      | some s =>
        have hrefuses : t.refuses line = (decide (reliable ≠ 0) != s.reliable) := by
          simp [refuses, hread, hget]
        by_cases hreliable : decide (reliable ≠ 0) = s.reliable
        · -- An assignment leaves the names and kinds of the streams, and nothing else decides about a line.
          have hsame := sameStreams_assign t name ssrc
          have hnamed : t.named (line :: lines) = (name, ssrc) :: (t.assign name ssrc).named lines := by
            rw [named_congr hsame]
            simp [named, hread, hget]
          have hparse : parseLines (line :: lines) matched t =
              parseLines lines (matched + 1) (t.assign name ssrc) := by
            simp [parseLines, hread, hget, hreliable]
          have hany : lines.any (t.assign name ssrc).refuses = lines.any t.refuses := by
            rw [funext (refuses_congr hsame)]
          have hsize : (t.assign name ssrc).streams.size = t.streams.size := Std.ExtTreeMap.size_modify
          have hrest := ih (matched + 1) (t.assign name ssrc)
          have hcount : matched + 1 + ((t.assign name ssrc).named lines).length =
              matched + (((t.assign name ssrc).named lines).length + 1) := by omega
          rw [hany, hsize, hcount] at hrest
          rw [List.any_cons, hrefuses, hreliable, bne_self_eq_false, Bool.false_or, hnamed, hparse,
            List.length_cons]
          exact hrest
        · have hdiffer : (decide (reliable ≠ 0) != s.reliable) = true := bne_iff_ne.mpr hreliable
          have hparse : parseLines (line :: lines) matched t = (false, t) := by
            simp only [parseLines, hread, hget]
            exact if_pos hreliable
          rw [List.any_cons, hrefuses, hdiffer, hparse]
          simp

/-! ## What has been assigned -/

theorem sameStreams_assignAll (t : DataTransport) (pairs : List (Bytes × UInt32)) :
    SameStreams (t.assignAll pairs) t := by
  induction pairs generalizing t with
  | nil => exact fun _ => rfl
  | cons pair pairs ih =>
    exact fun name => (ih (t.assign pair.1 pair.2) name).trans (sameStreams_assign t pair.1 pair.2 name)

theorem assignAll_other (h : name ∉ pairs.map (·.1)) :
    (t.assignAll pairs).streams[name]? = t.streams[name]? := by
  induction pairs generalizing t with
  | nil => rfl
  | cons pair pairs ih =>
    rw [List.map_cons, List.mem_cons, not_or] at h
    have hrest := ih (t := t.assign pair.1 pair.2) h.2
    rw [assign, OrderedMap.get_modify, if_neg h.1] at hrest
    exact hrest

/-- With distinct names, each stream has the SSRC of its line. -/
theorem assignAll_streams (hnames : (pairs.map (·.1)).Nodup) (hmem : (name, ssrc) ∈ pairs) :
    (t.assignAll pairs).streams[name]? = t.streams[name]?.map fun s => { s with remoteSsrc := ssrc } := by
  induction pairs generalizing t with
  | nil => simp at hmem
  | cons pair pairs ih =>
    obtain ⟨hfirst, hrest⟩ := List.nodup_cons.mp hnames
    obtain rfl | hmem := List.mem_cons.mp hmem
    · have hother := assignAll_other (t := t.assign name ssrc) hfirst
      rw [assign, OrderedMap.get_modify, if_pos rfl] at hother
      exact hother
    · have hne : name ≠ pair.1 := by
        rintro rfl
        exact hfirst (List.mem_map.mpr ⟨_, hmem, rfl⟩)
      have hlast := ih (t := t.assign pair.1 pair.2) hrest hmem
      rw [assign, OrderedMap.get_modify, if_neg hne] at hlast
      exact hlast

theorem assignAll_otherSsrc (h : ssrc ∉ pairs.map (·.2)) :
    (t.assignAll pairs).byRemoteSsrc[ssrc]? = t.byRemoteSsrc[ssrc]? := by
  induction pairs generalizing t with
  | nil => rfl
  | cons pair pairs ih =>
    rw [List.map_cons, List.mem_cons, not_or] at h
    have hrest := ih (t := t.assign pair.1 pair.2) h.2
    rw [assign, OrderedMap.get_insert, if_neg h.1] at hrest
    exact hrest

/-- With distinct SSRCs, each of them leads back to its stream. -/
theorem assignAll_byRemoteSsrc (hssrcs : (pairs.map (·.2)).Nodup) (hmem : (name, ssrc) ∈ pairs) :
    (t.assignAll pairs).byRemoteSsrc[ssrc]? = some name := by
  induction pairs generalizing t with
  | nil => simp at hmem
  | cons pair pairs ih =>
    obtain ⟨hfirst, hrest⟩ := List.nodup_cons.mp hssrcs
    obtain rfl | hmem := List.mem_cons.mp hmem
    · have hother := assignAll_otherSsrc (t := t.assign name ssrc) hfirst
      rw [assign, OrderedMap.get_insert, if_pos rfl] at hother
      exact hother
    · exact ih hrest hmem

/-! ## The names -/

def names (t : DataTransport) : List Bytes := t.streams.toList.map (·.1)

theorem mem_names : name ∈ t.names ↔ ∃ s, t.streams[name]? = some s := by
  simp only [names, List.mem_map, Prod.exists, exists_and_right, exists_eq_right]
  exact exists_congr fun s => Std.ExtTreeMap.mem_toList_iff_getElem?_eq_some

theorem names_nodup (t : DataTransport) : t.names.Nodup := by
  refine List.pairwise_map.mpr (List.Pairwise.imp (fun hne heq => hne ?_)
    Std.ExtTreeMap.distinct_keys_toList)
  rw [heq]
  exact Std.ReflCmp.compare_self

theorem names_length (t : DataTransport) : t.names.length = t.streams.size := by
  rw [names, List.length_map, Std.ExtTreeMap.length_toList]

/-- A line that names a local stream. -/
theorem mem_named : (name, ssrc) ∈ t.named lines ↔
    (∃ s, t.streams[name]? = some s) ∧ ∃ line ∈ lines, ∃ reliable, readLine line = .stream name ssrc reliable := by
  rw [named, List.mem_filterMap]
  constructor
  · rintro ⟨line, hline, hread⟩
    split at hread
    · rename_i heq
      obtain ⟨s, hget, hpair⟩ := Option.map_eq_some_iff.mp hread
      obtain ⟨rfl, rfl⟩ := Prod.mk.inj hpair
      exact ⟨⟨s, hget⟩, line, hline, _, heq⟩
    · contradiction
  · rintro ⟨⟨s, hget⟩, line, hline, reliable, hread⟩
    exact ⟨line, hline, by simp [hread, hget]⟩

theorem named_subset (t : DataTransport) (lines : List Bytes) : (t.named lines).map (·.1) ⊆ t.names := by
  intro name hname
  obtain ⟨⟨_, ssrc⟩, hpair, rfl⟩ := List.mem_map.mp hname
  exact mem_names.mpr (mem_named.mp hpair).1

/-! ## Complete negotiation -/

/-- A text is refused for one of its lines, or because the number of lines that name a local stream is
    not the number of streams. -/
def Refused (t : DataTransport) (sdp : Bytes) : Prop :=
  (getlines 0x0A sdp).any t.refuses = true ∨ (t.named (getlines 0x0A sdp)).length ≠ t.streams.size

/-- Of the lines that name a local stream, no two have the same name and no two the same SSRC. -/
def EachOnce (t : DataTransport) (sdp : Bytes) : Prop :=
  ((t.named (getlines 0x0A sdp)).map (·.1)).Nodup ∧ ((t.named (getlines 0x0A sdp)).map (·.2)).Nodup

/-- Every stream has a remote SSRC from a line of its own, and leads back from it. -/
structure Complete (t : DataTransport) (sdp : Bytes) (t' : DataTransport) : Prop where
  assigned : ∀ (name : Bytes) (s : Stream), t.streams[name]? = some s → ∃ s', t'.streams[name]? = some s' ∧
    ∃ line ∈ getlines 0x0A sdp, ∃ reliable, readLine line = .stream name s'.remoteSsrc reliable ∧
      decide (reliable ≠ 0) = s.reliable
  distinct : ∀ (name name' : Bytes) (s s' : Stream), t'.streams[name]? = some s →
    t'.streams[name']? = some s' → s.remoteSsrc = s'.remoteSsrc → name = name'
  back : ∀ (name : Bytes) (s : Stream), t'.streams[name]? = some s → t'.byRemoteSsrc[s.remoteSsrc]? = some name

/-- What `ParseRemoteStreams` returns, and what it has done if this is true. -/
theorem parseRemoteStreams_eq (t : DataTransport) (sdp : Bytes) :
    ((t.parseRemoteStreams sdp).1 = true ↔ ¬ t.Refused sdp) ∧
      (¬ t.Refused sdp → (t.parseRemoteStreams sdp).2 =
        assignAll { t with byRemoteSsrc := ∅ } (t.named (getlines 0x0A sdp))) := by
  obtain ⟨hrefuse, haccept⟩ := parseLines_eq (getlines 0x0A sdp) 0 { t with byRemoteSsrc := ∅ }
  have hany : (getlines 0x0A sdp).any (refuses { t with byRemoteSsrc := ∅ }) =
      (getlines 0x0A sdp).any t.refuses := rfl
  have hnamed : named { t with byRemoteSsrc := ∅ } (getlines 0x0A sdp) = t.named (getlines 0x0A sdp) := rfl
  rw [hany] at hrefuse haccept
  rw [hnamed, Nat.zero_add] at haccept
  cases hline : (getlines 0x0A sdp).any t.refuses with
  | true =>
    have hrefused : t.Refused sdp := .inl hline
    refine ⟨⟨fun h => ?_, fun h => absurd hrefused h⟩, fun h => absurd hrefused h⟩
    exact absurd (hrefuse hline) (by rw [← parseRemoteStreams, h]; simp)
  | false =>
    have hresult := haccept hline
    have hrefused : t.Refused sdp ↔ (t.named (getlines 0x0A sdp)).length ≠ t.streams.size := by
      simp [Refused, hline]
    rw [parseRemoteStreams, hresult, hrefused, not_not, beq_iff_eq]
    exact ⟨Iff.rfl, fun _ => rfl⟩

variable {sdp : Bytes}

/-- As many lines as streams, and none twice: each stream has its line. -/
theorem mem_named_names (hcount : (t.named lines).length = t.streams.size)
    (hnames : ((t.named lines).map (·.1)).Nodup) (hname : name ∈ t.names) :
    ∃ ssrc, (name, ssrc) ∈ t.named lines := by
  have hperm : ((t.named lines).map (·.1)).Perm t.names :=
    (List.subperm_of_subset hnames (named_subset t lines)).perm_of_length_le
      (by rw [names_length, List.length_map, hcount])
  obtain ⟨⟨_, ssrc⟩, hpair, rfl⟩ := List.mem_map.mp (hperm.mem_iff.mpr hname)
  exact ⟨ssrc, hpair⟩

theorem complete_of_eachOnce (haccepted : ¬ t.Refused sdp) (honce : t.EachOnce sdp) :
    Complete t sdp (assignAll { t with byRemoteSsrc := ∅ } (t.named (getlines 0x0A sdp))) := by
  obtain ⟨hrefuses, hcount⟩ := not_or.mp haccepted
  obtain ⟨hnames, hssrcs⟩ := honce
  rw [not_not] at hcount
  -- What a stream has got, and where from.
  have found : ∀ (name : Bytes) (s : Stream), t.streams[name]? = some s → ∃ ssrc, (name, ssrc) ∈ t.named (getlines 0x0A sdp) ∧
      (assignAll { t with byRemoteSsrc := ∅ } (t.named (getlines 0x0A sdp))).streams[name]? =
        some { s with remoteSsrc := ssrc } := by
    intro name s hs
    obtain ⟨ssrc, hpair⟩ := mem_named_names hcount hnames (mem_names.mpr ⟨s, hs⟩)
    exact ⟨ssrc, hpair, by rw [assignAll_streams hnames hpair, hs]; rfl⟩
  have known : ∀ (name : Bytes) (s' : Stream), (assignAll { t with byRemoteSsrc := ∅ }
      (t.named (getlines 0x0A sdp))).streams[name]? = some s' →
      (name, s'.remoteSsrc) ∈ t.named (getlines 0x0A sdp) := by
    intro name s' hs'
    have hsame := sameStreams_assignAll { t with byRemoteSsrc := ∅ } (t.named (getlines 0x0A sdp)) name
    rw [hs', Option.map_some] at hsame
    obtain ⟨s, hs, -⟩ := Option.map_eq_some_iff.mp hsame.symm
    obtain ⟨ssrc, hpair, hget⟩ := found name s hs
    obtain rfl := Option.some.inj (hs'.symm.trans hget)
    exact hpair
  refine ⟨fun name s hs => ?_, fun name name' s s' hs hs' heq => ?_, fun name s hs =>
    assignAll_byRemoteSsrc hssrcs (known name s hs)⟩
  · obtain ⟨ssrc, hpair, hget⟩ := found name s hs
    obtain ⟨-, line, hline, reliable, hread⟩ := mem_named.mp hpair
    refine ⟨_, hget, line, hline, reliable, hread, ?_⟩
    have hnot : ¬ t.refuses line = true := fun h => hrefuses (List.any_eq_true.mpr ⟨line, hline, h⟩)
    rw [refuses, hread] at hnot
    dsimp only at hnot
    rw [hs, Option.any_some, bne_iff_ne, not_not] at hnot
    exact hnot
  · have hinj := List.inj_on_of_nodup_map hssrcs (known name s hs) (known name' s' hs') heq
    exact congrArg Prod.fst hinj

theorem eachOnce_of_complete (haccepted : ¬ t.Refused sdp)
    (h : Complete t sdp (assignAll { t with byRemoteSsrc := ∅ } (t.named (getlines 0x0A sdp)))) :
    t.EachOnce sdp := by
  obtain ⟨-, hcount⟩ := not_or.mp haccepted
  rw [not_not] at hcount
  have hsubset : t.names ⊆ (t.named (getlines 0x0A sdp)).map (·.1) := by
    intro name hname
    obtain ⟨s, hs⟩ := mem_names.mp hname
    obtain ⟨s', -, line, hline, reliable, hread, -⟩ := h.assigned name s hs
    exact List.mem_map.mpr ⟨(name, s'.remoteSsrc), mem_named.mpr ⟨⟨s, hs⟩, line, hline, reliable, hread⟩, rfl⟩
  have hperm : t.names.Perm ((t.named (getlines 0x0A sdp)).map (·.1)) :=
    (List.subperm_of_subset t.names_nodup hsubset).perm_of_length_le
      (by rw [names_length, List.length_map, hcount])
  have hnames := hperm.nodup_iff.mp t.names_nodup
  refine ⟨hnames, ?_⟩
  refine List.Nodup.map_on (fun pair hpair pair' hpair' heq => ?_) (List.Nodup.of_map _ hnames)
  obtain ⟨name, ssrc⟩ := pair
  obtain ⟨name', ssrc'⟩ := pair'
  obtain rfl : ssrc = ssrc' := heq
  obtain ⟨⟨s, hs⟩, -⟩ := mem_named.mp hpair
  obtain ⟨⟨s', hs'⟩, -⟩ := mem_named.mp hpair'
  have hget := assignAll_streams (t := { t with byRemoteSsrc := ∅ }) hnames hpair
  have hget' := assignAll_streams (t := { t with byRemoteSsrc := ∅ }) hnames hpair'
  rw [hs, Option.map_some] at hget
  rw [hs', Option.map_some] at hget'
  rw [h.distinct name name' _ _ hget hget' rfl]

/-! ## The lines of a peer -/

/-- A transport as the calls of `MiniRtcAddDataStream` and the constructor make it. -/
def Configured (t : DataTransport) : Prop :=
  ∃ calls localSsrc, t = create (configure calls) localSsrc

/-- Names without blanks, and SSRCs as `GenerateUniqueSsrc` gives them. -/
structure Advertises (t : DataTransport) : Prop where
  names : ∀ name ∈ t.streams, ∀ c ∈ name, isSpace c = false
  nonzero : ∀ (name : Bytes) (s : Stream), t.streams[name]? = some s → s.localSsrc ≠ 0
  distinct : ∀ (name name' : Bytes) (s s' : Stream), t.streams[name]? = some s →
    t.streams[name']? = some s' → s.localSsrc = s'.localSsrc → name = name'

theorem configure_names (calls : List (Bytes × Bool)) : ∀ cfg ∈ configure calls, cfg.name ≠ [] := by
  have keep : ∀ (calls : List (Bytes × Bool)) (streams : List DataStreamConfig),
      (∀ cfg ∈ streams, cfg.name ≠ []) →
      ∀ cfg ∈ calls.foldl (fun streams call => addDataStream streams call.1 call.2) streams,
        cfg.name ≠ [] := by
    intro calls
    induction calls with
    | nil => exact fun _ h => h
    | cons call calls ih =>
      intro streams h
      refine ih _ fun cfg hcfg => ?_
      change cfg ∈ addDataStream streams call.1 call.2 at hcfg
      rw [addDataStream] at hcfg
      split at hcfg
      · exact h cfg hcfg
      · split at hcfg
        · exact h cfg hcfg
        · obtain hcfg | hcfg := List.mem_append.mp hcfg
          · exact h cfg hcfg
          · rwa [List.mem_singleton.mp hcfg]
  exact keep calls [] (by simp)

theorem mem_create {configs : List DataStreamConfig} {localSsrc : Bytes → UInt32}
    (h : name ∈ (create configs localSsrc).streams) : ∃ cfg ∈ configs, cfg.name = name := by
  have keep : ∀ (configs : List DataStreamConfig) (streams : OrderedMap Bytes Stream),
      name ∈ configs.foldl (fun streams cfg =>
        streams.insert cfg.name { reliable := cfg.reliable, localSsrc := localSsrc cfg.name }) streams →
      name ∈ streams ∨ ∃ cfg ∈ configs, cfg.name = name := by
    intro configs
    induction configs with
    | nil => exact fun _ h => .inl h
    | cons cfg configs ih =>
      intro streams h
      obtain h | ⟨cfg', hcfg', hname⟩ := ih _ h
      · obtain heq | h := Std.ExtTreeMap.mem_insert.mp h
        · exact .inr ⟨cfg, List.mem_cons_self, Std.LawfulEqCmp.compare_eq_iff_eq.mp heq⟩
        · exact .inl h
      · exact .inr ⟨cfg', List.mem_cons_of_mem _ hcfg', hname⟩
  obtain h | h := keep configs ∅ h
  · exact absurd h Std.ExtTreeMap.not_mem_empty
  · exact h

theorem Configured.nameOk (h : Configured t) (hads : Advertises t) : ∀ name ∈ t.streams, NameOk name := by
  obtain ⟨calls, localSsrc, rfl⟩ := h
  intro name hname
  obtain ⟨cfg, hcfg, rfl⟩ := mem_create hname
  exact ⟨configure_names calls cfg hcfg, hads.names _ hname⟩

/-- A line that is not one of a stream says nothing. -/
theorem named_filter (t : DataTransport) (lines : List Bytes) :
    t.named (lines.filter isStreamLine) = t.named lines := by
  rw [named, List.filterMap_filter]
  unfold named
  congr 1
  funext line
  cases hline : isStreamLine line with
  | true => rfl
  | false =>
    have hread : readLine line = .other := by rw [readLine, hline]; rfl
    simp [hread]

theorem any_refuses_filter (t : DataTransport) (lines : List Bytes) :
    (lines.filter isStreamLine).any t.refuses = lines.any t.refuses := by
  rw [List.any_filter]
  congr 1
  funext line
  cases hline : isStreamLine line with
  | true => simp
  | false =>
    have hread : readLine line = .other := by rw [readLine, hline]; rfl
    simp [refuses, hread]

theorem sameStreams_size (h : SameStreams t t') : t.streams.size = t'.streams.size := by
  have hmem : ∀ name : Bytes, name ∈ t.names ↔ name ∈ t'.names := by
    intro name
    have hname := congrArg Option.isSome (h name)
    rw [Option.isSome_map, Option.isSome_map] at hname
    rw [mem_names, mem_names, ← Option.isSome_iff_exists, ← Option.isSome_iff_exists, hname]
  rw [← names_length, ← names_length]
  exact ((List.perm_ext_iff_of_nodup t.names_nodup t'.names_nodup).mpr hmem).length_eq

/-- What a text says that has the lines of a peer, and none of other streams. -/
theorem named_peer {peer : DataTransport} (hsame : SameStreams t peer) (hconfigured : Configured peer)
    (hads : Advertises peer)
    (hlines : (getlines 0x0A sdp).filter isStreamLine = getlines 0x0A peer.localStreamSdpLines) :
    t.named (getlines 0x0A sdp) = peer.streams.toList.map (fun e => (e.1, e.2.localSsrc)) ∧
      (getlines 0x0A sdp).any t.refuses = false := by
  have hok := hconfigured.nameOk hads
  have hread : ∀ e ∈ peer.streams.toList, readLine (streamLine e.1 e.2) =
      .stream e.1 e.2.localSsrc (if e.2.reliable then 1 else 0) ∧ ∃ s, t.streams[e.1]? = some s ∧
        s.reliable = e.2.reliable := by
    intro e he
    have hget : peer.streams[e.1]? = some e.2 := Std.ExtTreeMap.mem_toList_iff_getElem?_eq_some.mp he
    have hname : e.1 ∈ peer.streams := by
      rw [Std.ExtTreeMap.mem_iff_isSome_getElem?, hget, Option.isSome_some]
    refine ⟨readLine_streamLine (hok e.1 hname) (hads.nonzero e.1 e.2 hget), ?_⟩
    have hboth := hsame e.1
    rw [hget, Option.map_some] at hboth
    exact Option.map_eq_some_iff.mp hboth
  rw [← named_filter, ← any_refuses_filter, hlines, getlines_localStreamSdpLines peer hok]
  constructor
  · rw [named, List.filterMap_map, ← List.filterMap_eq_map]
    refine List.filterMap_congr fun e he => ?_
    obtain ⟨hline, s, hs, -⟩ := hread e he
    simp only [Function.comp_apply, hline, hs, Option.map_some]
  · rw [List.any_eq_false]
    intro line hline
    obtain ⟨e, he, rfl⟩ := List.mem_map.mp hline
    obtain ⟨hline, s, hs, hreliable⟩ := hread e he
    simp only [refuses, hline, hs, Option.any_some, hreliable]
    cases e.2.reliable <;> simp

theorem parse_peer {peer : DataTransport} (hsame : SameStreams t peer) (hconfigured : Configured peer)
    (hads : Advertises peer)
    (hlines : (getlines 0x0A sdp).filter isStreamLine = getlines 0x0A peer.localStreamSdpLines) :
    (t.parseRemoteStreams sdp).1 = true ∧ ∀ (name : Bytes) (s : Stream), peer.streams[name]? = some s →
      (t.parseRemoteStreams sdp).2.streams[name]?.map (·.remoteSsrc) = some s.localSsrc ∧
        (t.parseRemoteStreams sdp).2.byRemoteSsrc[s.localSsrc]? = some name := by
  obtain ⟨hnamed, hrefuses⟩ := named_peer hsame hconfigured hads hlines
  obtain ⟨haccept, hresult⟩ := parseRemoteStreams_eq t sdp
  have haccepted : ¬ t.Refused sdp := by
    rw [Refused, hrefuses, hnamed, List.length_map, Std.ExtTreeMap.length_toList, sameStreams_size hsame]
    simp
  have hnames : ((t.named (getlines 0x0A sdp)).map (·.1)).Nodup := by
    rw [hnamed, List.map_map]
    exact peer.names_nodup
  have hssrcs : ((t.named (getlines 0x0A sdp)).map (·.2)).Nodup := by
    rw [hnamed, List.map_map]
    refine List.Nodup.map_on (fun e he e' he' heq => ?_) (List.Nodup.of_map _ peer.names_nodup)
    have hget : peer.streams[e.1]? = some e.2 := Std.ExtTreeMap.mem_toList_iff_getElem?_eq_some.mp he
    have hget' : peer.streams[e'.1]? = some e'.2 := Std.ExtTreeMap.mem_toList_iff_getElem?_eq_some.mp he'
    have hfst := hads.distinct e.1 e'.1 e.2 e'.2 hget hget' heq
    rw [hfst, hget'] at hget
    exact Prod.ext hfst (Option.some.inj hget).symm
  refine ⟨haccept.mpr haccepted, fun name s hs => ?_⟩
  have hpair : (name, s.localSsrc) ∈ t.named (getlines 0x0A sdp) := by
    rw [hnamed]
    exact List.mem_map.mpr ⟨(name, s), Std.ExtTreeMap.mem_toList_iff_getElem?_eq_some.mpr hs, rfl⟩
  have hboth := hsame name
  rw [hs, Option.map_some] at hboth
  obtain ⟨s', hs', -⟩ := Option.map_eq_some_iff.mp hboth
  rw [hresult haccepted]
  refine ⟨?_, assignAll_byRemoteSsrc hssrcs hpair⟩
  rw [assignAll_streams hnames hpair, hs']
  rfl

/-- Negotiation. For every text, an accepted description is complete if and only if no two of its lines
    for local streams have the same name or the same SSRC. The lines that a peer with the same streams
    writes are accepted wherever they stand, and give its SSRCs. -/
theorem negotiation (t : DataTransport) (sdp : Bytes) :
    (((t.parseRemoteStreams sdp).1 = true → Complete t sdp (t.parseRemoteStreams sdp).2) ↔
      t.Refused sdp ∨ t.EachOnce sdp) ∧
    ∀ peer : DataTransport, SameStreams t peer → Configured peer → Advertises peer →
      (getlines 0x0A sdp).filter isStreamLine = getlines 0x0A peer.localStreamSdpLines →
      (t.parseRemoteStreams sdp).1 = true ∧ ∀ (name : Bytes) (s : Stream), peer.streams[name]? = some s →
        (t.parseRemoteStreams sdp).2.streams[name]?.map (·.remoteSsrc) = some s.localSsrc ∧
          (t.parseRemoteStreams sdp).2.byRemoteSsrc[s.localSsrc]? = some name := by
  refine ⟨?_, fun peer hsame hconfigured hads hlines => parse_peer hsame hconfigured hads hlines⟩
  obtain ⟨haccept, hresult⟩ := parseRemoteStreams_eq t sdp
  by_cases hrefused : t.Refused sdp
  · exact ⟨fun _ => .inl hrefused, fun _ h => absurd hrefused (haccept.mp h)⟩
  · rw [hresult hrefused, or_iff_right hrefused]
    exact ⟨fun h => eachOnce_of_complete hrefused (h (haccept.mpr hrefused)),
      fun h _ => complete_of_eachOnce hrefused h⟩

/-- Transports that were made from the same configuration have the same streams. -/
theorem sameStreams_create (configs : List DataStreamConfig) (localSsrc peerSsrc : Bytes → UInt32) :
    SameStreams (create configs localSsrc) (create configs peerSsrc) := by
  have keep : ∀ streams streams' : OrderedMap Bytes Stream,
      (∀ name : Bytes, streams[name]?.map (·.reliable) = streams'[name]?.map (·.reliable)) → ∀ name : Bytes,
      (configs.foldl (fun streams cfg =>
        streams.insert cfg.name { reliable := cfg.reliable, localSsrc := localSsrc cfg.name })
          streams)[name]?.map (·.reliable) =
      (configs.foldl (fun streams cfg =>
        streams.insert cfg.name { reliable := cfg.reliable, localSsrc := peerSsrc cfg.name })
          streams')[name]?.map (·.reliable) := by
    induction configs with
    | nil => exact fun _ _ hsame => hsame
    | cons cfg configs ih =>
      intro streams streams' hsame
      apply ih
      intro name
      rw [OrderedMap.get_insert, OrderedMap.get_insert]
      split
      · rfl
      · exact hsame name
  exact keep ∅ ∅ fun _ => rfl

/-- Two streams, as the core configures them. -/
def ctrlAndData (ctrlSsrc dataSsrc : UInt32) : DataTransport :=
  create (configure [(ascii "ctrl", true), (ascii "data", false)])
    fun name => if name = ascii "ctrl" then ctrlSsrc else dataSsrc

theorem ctrlAndData_toList : (ctrlAndData 70 80).streams.toList =
    [(ascii "ctrl", ⟨true, 70, 0⟩), (ascii "data", ⟨false, 80, 0⟩)] := by
  decide

theorem ctrlAndData_streams {s : Stream} (h : (ctrlAndData 70 80).streams[name]? = some s) :
    name = ascii "ctrl" ∧ s = ⟨true, 70, 0⟩ ∨ name = ascii "data" ∧ s = ⟨false, 80, 0⟩ := by
  have hmem := Std.ExtTreeMap.mem_toList_iff_getElem?_eq_some.mpr h
  rw [ctrlAndData_toList, List.mem_cons, List.mem_singleton, Prod.mk.injEq, Prod.mk.injEq] at hmem
  exact hmem

theorem ctrlAndData_advertises : Advertises (ctrlAndData 70 80) where
  names name hname := by
    rw [Std.ExtTreeMap.mem_iff_isSome_getElem?, Option.isSome_iff_exists] at hname
    obtain ⟨s, hs⟩ := hname
    obtain ⟨rfl, -⟩ | ⟨rfl, -⟩ := ctrlAndData_streams hs <;> decide +kernel
  nonzero name s hs := by
    obtain ⟨-, rfl⟩ | ⟨-, rfl⟩ := ctrlAndData_streams hs <;> decide +kernel
  distinct name name' s s' hs hs' := by
    obtain ⟨rfl, rfl⟩ | ⟨rfl, rfl⟩ := ctrlAndData_streams hs <;>
      obtain ⟨rfl, rfl⟩ | ⟨rfl, rfl⟩ := ctrlAndData_streams hs' <;> simp

/-- The lines of the peer behind another line. -/
theorem negotiation_ctrlAndData : ∃ accepted,
    (ctrlAndData 7 8).parseRemoteStreams (ascii "v=0\r\n" ++ (ctrlAndData 70 80).localStreamSdpLines) =
      (true, accepted) ∧
    accepted.streams[ascii "ctrl"]?.map (·.remoteSsrc) = some 70 ∧
    accepted.streams[ascii "data"]?.map (·.remoteSsrc) = some 80 ∧
    accepted.byRemoteSsrc[(70 : UInt32)]? = some (ascii "ctrl") ∧
    accepted.byRemoteSsrc[(80 : UInt32)]? = some (ascii "data") := by
  have hlines : (getlines 0x0A (ascii "v=0\r\n" ++ (ctrlAndData 70 80).localStreamSdpLines)).filter isStreamLine =
      getlines 0x0A (ctrlAndData 70 80).localStreamSdpLines := by
    decide +kernel
  obtain ⟨haccepted, hassigned⟩ := (negotiation (ctrlAndData 7 8) _).2 (ctrlAndData 70 80)
    (sameStreams_create _ _ _) ⟨_, _, rfl⟩ ctrlAndData_advertises hlines
  have hctrl := hassigned (ascii "ctrl") ⟨true, 70, 0⟩ (by decide +kernel)
  have hdata := hassigned (ascii "data") ⟨false, 80, 0⟩ (by decide +kernel)
  exact ⟨_, Prod.ext haccepted rfl, hctrl.1, hdata.1, hctrl.2, hdata.2⟩

/-- Two lines for `ctrl` and none for `data`. -/
theorem not_negotiation : ¬ ∀ (t : DataTransport) (sdp : Bytes), Configured t →
    (t.parseRemoteStreams sdp).1 = true → Complete t sdp (t.parseRemoteStreams sdp).2 := by
  intro h
  have hrefused : ¬ (ctrlAndData 7 8).Refused (ascii "a=x-data-stream:ctrl 5 1\na=x-data-stream:ctrl 5 1\n") := by
    unfold Refused
    decide +kernel
  have honce : ¬ (ctrlAndData 7 8).EachOnce (ascii "a=x-data-stream:ctrl 5 1\na=x-data-stream:ctrl 5 1\n") := by
    unfold EachOnce
    decide +kernel
  obtain ⟨haccept, hresult⟩ := parseRemoteStreams_eq (ctrlAndData 7 8)
    (ascii "a=x-data-stream:ctrl 5 1\na=x-data-stream:ctrl 5 1\n")
  have hcomplete := h (ctrlAndData 7 8) _ ⟨_, _, rfl⟩ (haccept.mpr hrefused)
  rw [hresult hrefused] at hcomplete
  exact honce (eachOnce_of_complete hrefused hcomplete)

end DataTransport

end CrossTransfer.Minirtc
