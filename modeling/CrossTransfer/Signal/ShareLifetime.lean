import CrossTransfer.Signal.Integrity

/-! # How long a share lives

`onCreateShare` turns the seconds that a client asks for into nanoseconds, in 64 bits, and bounds
the result by the maximum for the mode. The bound comes after the product may have wrapped around,
so it is only met by requests whose product stays in range or wraps to the maximum or more
(`clamped_iff`).
-/

namespace CrossTransfer.Signal

open CrossTransfer.Library
open CrossTransfer.Transfer

/-- The configured maximum for a mode. -/
def Options.maxTtl (opt : Options) : Mode → Int
  | .once => opt.maxOnceTtl
  | .open => opt.maxOpenTtl

/-- The share and its code live as long as the request asks for, and at most `maxTtl`. -/
structure Clamped (now maxTtl ttlSec : Int) (s : Share) (e : Codes.Entry) : Prop where
  expires : s.expiresAt = now + min (ttlSec * second) maxTtl
  later : now < s.expiresAt
  bounded : s.expiresAt ≤ now + maxTtl
  code : e.expiresAt = s.expiresAt

namespace Hub

variable {opt : Options} {io : HubIo} {h : Hub}

/-- The last `MaxInt64` nanoseconds of every `2 ^ 64` are read as a positive duration. -/
theorem le_wrap64_iff {low x : Int} (hlow : 0 < low) :
    low ≤ wrap64 x ↔ ∃ k : Int, k * 2 ^ 64 + low ≤ x ∧ x < k * 2 ^ 64 + 2 ^ 63 := by
  have hlt : wrap64 x < 2 ^ 63 := Int.bmod_lt (by decide)
  have hwrap : x = wrap64 x + 2 ^ 64 * x.bdiv (2 ^ 64) := (Int.bmod_add_bdiv x (2 ^ 64)).symm
  constructor
  · intro hle
    exact ⟨x.bdiv (2 ^ 64), by omega, by omega⟩
  · rintro ⟨k, hk, hk'⟩
    have hge : -2 ^ 63 ≤ wrap64 x := Int.le_bmod (by decide)
    omega

theorem wrap64_of_fits {x : Int} (hx : 0 ≤ x) (hfits : x < 2 ^ 63) : wrap64 x = x :=
  Int.bmod_eq_of_le (by omega) (by omega)

/-- The lifetime of a share whose request names one. -/
theorem shareTtl_eq (mode : Mode) {ttlSec : Int} (hasked : 0 < ttlSec) :
    shareTtl opt mode ttlSec = min (wrap64 (ttlSec * second)) (opt.maxTtl mode) := by
  have hmin : ∀ a b : Int, (if b < a then b else a) = min a b := by
    intro a b
    omega
  cases mode <;> simp only [shareTtl, if_pos hasked, Options.maxTtl, hmin]

/-- What a request that is granted adds. -/
theorem of_onCreateShare {p : Bytes} {id : Int} {m : CreateShareMsg} {mode : Mode} {s : Share}
    (hmode : parseMode m.mode = some mode) (hnew : io.shareId ∉ h.shares)
    (hcreated : (h.onCreateShare opt io p id (.ok m)).shares[io.shareId]? = some s) :
    s.expiresAt = io.now + shareTtl opt mode m.ttlSec ∧
      ∃ e, (h.onCreateShare opt io p id (.ok m)).codes.byId[io.shareId]? = some e ∧
        e.expiresAt = s.expiresAt := by
  have habsent : h.shares[io.shareId]? = none := by simpa using hnew
  unfold onCreateShare at hcreated ⊢
  simp only [hmode] at hcreated ⊢
  -- Where the request is refused, the shares are those before.
  split at hcreated
  · simp [next, habsent] at hcreated
  · split at hcreated
    · simp [habsent] at hcreated
    · split at hcreated
      · simp [next, habsent] at hcreated
      · rename_i hmeta hopen hroom
        simp only [if_neg hmeta, if_neg hopen, if_neg hroom]
        split at hcreated
        · simp [next, habsent] at hcreated
        · rename_i codes entry hadd
          obtain ⟨-, -, -, hexpires, hbyId, -⟩ := Registry.of_add hadd
          simp only [next, OrderedMap.get_insert, if_pos, Option.some.injEq] at hcreated
          obtain rfl := hcreated
          simp only [next]
          refine ⟨trivial, entry, ?_, hexpires⟩
          rw [hbyId, OrderedMap.get_insert, if_pos rfl]

/-- A lifetime is bounded as it should be exactly when the product is in range, or wraps to the
    maximum or more. -/
theorem clamped_iff {p : Bytes} {id : Int} {m : CreateShareMsg} {mode : Mode} {s : Share}
    (hmode : parseMode m.mode = some mode) (hasked : 0 < m.ttlSec) (hmax : 0 < opt.maxTtl mode)
    (hdur : opt.maxTtl mode < 2 ^ 63) (hnew : io.shareId ∉ h.shares)
    (hcreated : (h.onCreateShare opt io p id (.ok m)).shares[io.shareId]? = some s) :
    (∃ e, (h.onCreateShare opt io p id (.ok m)).codes.byId[io.shareId]? = some e ∧
        Clamped io.now (opt.maxTtl mode) m.ttlSec s e) ↔
      m.ttlSec * second < 2 ^ 63 ∨ ∃ k : Int, k * 2 ^ 64 + opt.maxTtl mode ≤ m.ttlSec * second ∧
        m.ttlSec * second < k * 2 ^ 64 + 2 ^ 63 := by
  obtain ⟨hexpires, e, he, hcode⟩ := of_onCreateShare hmode hnew hcreated
  rw [shareTtl_eq mode hasked] at hexpires
  rw [← le_wrap64_iff hmax]
  have hpos : 0 < m.ttlSec * second := Int.mul_pos hasked (by decide)
  constructor
  · rintro ⟨e', -, clamped⟩
    have hasks := clamped.expires
    by_cases hfits : m.ttlSec * second < 2 ^ 63
    · exact .inl hfits
    · right
      omega
  · intro hcondition
    -- In both cases the bound is the same as without the wrap.
    have hsame : min (wrap64 (m.ttlSec * second)) (opt.maxTtl mode) =
        min (m.ttlSec * second) (opt.maxTtl mode) := by
      by_cases hfits : m.ttlSec * second < 2 ^ 63
      · rw [wrap64_of_fits hpos.le hfits]
      · have hle := hcondition.resolve_left hfits
        omega
    rw [hsame] at hexpires
    exact ⟨e, he, hexpires, by omega, by omega, hcode⟩

/-- A peer says hello and asks for a share of so many seconds. -/
def lifetimeRun (ttlSec : Int) : List (HubIo × Action) :=
  [(ioAt 1 0, .connect []), request 3 0 [80, 1] 1 (.hello (.ok { proto := 1 })),
    request 4 0 [80, 1] 2 (.createShare (.ok { ttlSec := ttlSec }))]

/-- The hub after a first peer has asked for a share of 100000 seconds. -/
def dayHub : Hub := onCreateShare (Options.withDefaults {}) (ioAt 4 0) {} [80, 1] 2 (.ok { ttlSec := 100000 })

/-- They are bounded to a day. -/
theorem clamped_day : ∃ s, dayHub.shares[([83, 4] : Bytes)]? = some s ∧
    ((∃ e, dayHub.codes.byId[([83, 4] : Bytes)]? = some e ∧
        Clamped 0 (24 * 60 * minute) 100000 s e) ↔
      100000 * second < 2 ^ 63 ∨ ∃ k : Int, k * 2 ^ 64 + 24 * 60 * minute ≤ 100000 * second ∧
        100000 * second < k * 2 ^ 64 + 2 ^ 63) := by
  have hsome : (dayHub.shares.get? [83, 4]).isSome := by decide +kernel
  obtain ⟨s, hs⟩ := Option.isSome_iff_exists.mp hsome
  have hmode : parseMode (CreateShareMsg.mode { ttlSec := 100000 }) = some .once := by decide
  have hnew : (ioAt 4 0).shareId ∉ ({} : Hub).shares := Std.ExtTreeMap.not_mem_empty
  exact ⟨s, hs, clamped_iff hmode (by decide) (by decide) (by decide) hnew hs⟩

/-- Nine billion seconds and more make a share that expired centuries ago. -/
theorem not_clamped_wrapped : ∃ h s e,
    (machine {}).Run Machine.anyStep (lifetimeRun 9223372037) h ∧ h.shares[([83, 4] : Bytes)]? = some s ∧
    h.codes.byId[([83, 4] : Bytes)]? = some e ∧
    ¬ Clamped 0 (Options.withDefaults {}).maxOnceTtl 9223372037 s e := by
  have hexec : ((machine {}).exec (lifetimeRun 9223372037) (machine {}).init).map (fun h =>
      ((h.shares.get? [83, 4]).map (·.expiresAt), h.codes.byId.get? [83, 4])) =
      some (some (-9223372036709551616),
        some ⟨[83, 4], ascii "4444444444", -9223372036709551616⟩) := by
    decide +kernel
  obtain ⟨h, hexec, heq⟩ := Option.map_eq_some_iff.mp hexec
  obtain ⟨hshare, he⟩ := Prod.mk.inj heq
  obtain ⟨s, hs, hexpires⟩ := Option.map_eq_some_iff.mp hshare
  refine ⟨h, s, _, Machine.run_of_exec hexec, hs, he, fun clamped => ?_⟩
  have hlater := clamped.later
  omega

end Hub

end CrossTransfer.Signal
