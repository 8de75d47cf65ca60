import CrossTransfer.Library.Machine
import CrossTransfer.Library.OrderedSet
import CrossTransfer.Share.TakeCode
import CrossTransfer.Signal.Codes

/-! # Runs of the code registry

The registry under any calls of `Add`, `Remove` and `Sweep`. `Sweep` collects the expired ids in
one critical section and removes each of them in another, so other calls can come between.

The symbols of a code are those of the alphabet (`Canonical`), for the codes that are drawn as for
those a user types. Client and server read a text alike, and a canonical code stands for itself in
either spelling; so the server finds what the client takes for the code of a share.
-/

namespace CrossTransfer.Signal

open CrossTransfer.Library
open CrossTransfer.Transfer

namespace Codes

/-- Ten symbols of the alphabet. -/
structure Canonical (code : Bytes) : Prop where
  size : code.length = length
  symbols : ∀ c ∈ code, c ∈ alphabet

/-! ## Reading a text -/

/-- The characters that both sides skip. -/
def IsSeparator (c : UInt8) : Prop := c = 45 ∨ c = 32 ∨ c = 9 ∨ c = 95

instance (c : UInt8) : Decidable (IsSeparator c) := inferInstanceAs (Decidable (_ ∨ _))

theorem symbol_mem {c s : UInt8} (h : symbol c = some s) : s ∈ alphabet := by
  unfold symbol at h
  split at h
  · obtain rfl := Option.some.inj h
    decide
  · split at h
    · obtain rfl := Option.some.inj h
      decide
    · split at h
      · rename_i hmem
        obtain rfl := Option.some.inj h
        exact List.contains_iff_mem.mp hmem
      · cases h

/-- A symbol of the alphabet is no separator and stands for itself. -/
theorem symbol_of_mem : ∀ c ∈ alphabet, ¬ IsSeparator c ∧ ¬ (97 ≤ c ∧ c ≤ 122) ∧ symbol c = some c := by
  decide +kernel

theorem normalizeFrom_canonical {out input code : Bytes} (hout : ∀ c ∈ out, c ∈ alphabet)
    (h : normalizeFrom out input = some code) : Canonical code := by
  induction input generalizing out with
  | nil =>
    simp only [normalizeFrom] at h
    split at h
    · rename_i hlen
      obtain rfl := Option.some.inj h
      exact ⟨hlen, hout⟩
    · cases h
  | cons c rest ih =>
    simp only [normalizeFrom] at h
    split at h
    · exact ih hout h
    · split at h
      · cases h
      · rename_i s hs
        split at h
        · cases h
        · refine ih (fun x hx => ?_) h
          obtain hx | hx := List.mem_append.mp hx
          · exact hout x hx
          · rw [List.mem_singleton.mp hx]
            exact symbol_mem hs

/-- What is read is a canonical code. -/
theorem canonical_of_normalize {input code : Bytes} (h : normalize input = some code) :
    Canonical code :=
  normalizeFrom_canonical (by simp) h

/-- Symbols are read as they stand, while there is room for them. -/
theorem normalizeFrom_symbols (out symbols rest : Bytes) (hsymbols : ∀ c ∈ symbols, c ∈ alphabet)
    (hroom : out.length + symbols.length ≤ length) :
    normalizeFrom out (symbols ++ rest) = normalizeFrom (out ++ symbols) rest := by
  induction symbols generalizing out with
  | nil => simp
  | cons c symbols ih =>
    rw [List.forall_mem_cons] at hsymbols
    obtain ⟨hsep, hlower, hsymbol⟩ := symbol_of_mem c hsymbols.1
    rw [List.length_cons] at hroom
    have hfits : ¬ length ≤ out.length := by omega
    have hnext := ih (out ++ [c]) hsymbols.2 (by simp; omega)
    rw [IsSeparator] at hsep
    simp only [List.cons_append, normalizeFrom, if_neg hsep, if_neg hlower, hsymbol, if_neg hfits]
    rw [hnext, List.append_assoc]
    rfl

/-- A canonical code is read as it stands. -/
theorem normalize_canonical {code : Bytes} (h : Canonical code) : normalize code = some code := by
  have hread := normalizeFrom_symbols [] code [] h.symbols (by simp [h.size])
  rw [List.append_nil, List.nil_append] at hread
  rw [normalize, hread, normalizeFrom, if_pos h.size]

/-- So is its spelling for display. -/
theorem normalize_format {code : Bytes} (h : Canonical code) : normalize (format code) = some code := by
  have hsize := h.size
  rw [length] at hsize
  have hfirst := normalizeFrom_symbols [] (code.take 5) ([45] ++ code.drop 5)
    (fun c hc => h.symbols c (List.mem_of_mem_take hc)) (by simp [length])
  have hlast := normalizeFrom_symbols (code.take 5) (code.drop 5) []
    (fun c hc => h.symbols c (List.mem_of_mem_drop hc)) (by simp [hsize, length])
  have hdash : normalizeFrom (code.take 5) ([45] ++ code.drop 5) =
      normalizeFrom (code.take 5) (code.drop 5) := by
    simp [normalizeFrom]
  rw [List.append_nil, List.take_append_drop] at hlast
  rw [normalize, format, if_neg (not_not.mpr h.size), List.append_assoc, hfirst, List.nil_append,
    hdash, hlast, normalizeFrom, if_pos h.size]

/-! ## The client's reading -/

theorem decodeSymbol_eq (c : UInt8) : Share.decodeSymbol c = symbol c := rfl

/-- The client's loop, where nothing read is the empty text. -/
theorem normalizeFrom_client (out input : Bytes) :
    Share.normalizeFrom out input = (normalizeFrom out input).getD [] := by
  induction input generalizing out with
  | nil =>
    rw [Share.normalizeFrom, normalizeFrom, apply_ite (Option.getD · [])]
    rfl
  | cons c rest ih =>
    rw [Share.normalizeFrom, normalizeFrom]
    by_cases hsep : c = 45 ∨ c = 32 ∨ c = 9 ∨ c = 95
    · rw [if_pos hsep, if_pos hsep, ih]
    · rw [if_neg hsep, if_neg hsep]
      simp only [decodeSymbol_eq]
      cases symbol (if 97 ≤ c ∧ c ≤ 122 then c - 32 else c) with
      | none => rfl
      | some s =>
        simp only [ih]
        rw [apply_ite (Option.getD · [])]
        rfl

theorem normalize_client (input : Bytes) : Share.normalize input = (normalize input).getD [] :=
  normalizeFrom_client [] input

theorem format_client (code : Bytes) : Share.format code = format code := rfl

/-- What the client takes for a code. -/
theorem normalize_client_eq_iff {input code : Bytes} (hcode : Canonical code) :
    Share.normalize input = code ↔ normalize input = some code := by
  rw [normalize_client]
  cases hread : normalize input with
  | none =>
    have hne : code ≠ [] := by
      rintro rfl
      exact absurd hcode.size (by decide)
    simpa using hne.symm
  | some read => simp

/-! ## Drawing a code -/

theorem canonical_generate {random : Option (Fin length → UInt8)} {code : Bytes}
    (h : generate random = some code) : Canonical code := by
  obtain ⟨buf, -, rfl⟩ := Option.map_eq_some_iff.mp h
  refine ⟨List.length_ofFn, fun c hc => ?_⟩
  obtain ⟨i, rfl⟩ := (List.mem_ofFn' _ _).mp hc
  -- Five bits point into the alphabet.
  have hbits : (buf i &&& 0x1f).toNat < alphabet.length := by
    rw [UInt8.toNat_and]
    exact Nat.and_lt_two_pow _ (by decide : (31 : Nat) < 2 ^ 5)
  simp only [List.getD_eq_getElem?_getD, List.getElem?_eq_getElem hbits, Option.getD_some]
  exact List.getElem_mem hbits

end Codes

open Codes

namespace Registry

variable {r : Registry}

/-! ## Sweep -/

/-- The first pass of `Sweep`: the ids of the entries that have expired. -/
def expiredIds (r : Registry) (order : MapOrder Bytes) (now : Int) : List Bytes :=
  order.visit (r.byId.filter fun _ e => e.expiresAt ≤ now).keys

/-- `Sweep`. -/
def sweep (r : Registry) (order : MapOrder Bytes) (now : Int) : List Bytes × Registry :=
  let ids := r.expiredIds order now
  (ids, ids.foldl Registry.remove r)

theorem mem_expiredIds (order : MapOrder Bytes) (now : Int) (id : Bytes) :
    id ∈ r.expiredIds order now ↔ ∃ e, r.byId[id]? = some e ∧ e.expiresAt ≤ now := by
  rw [expiredIds, (order.perm _).mem_iff, Std.ExtTreeMap.mem_keys,
    Std.ExtTreeMap.mem_iff_isSome_getElem?, Std.ExtTreeMap.getElem?_filter', Option.isSome_filter]
  cases r.byId[id]? <;> simp

theorem get_foldl_remove (ids : List Bytes) (r : Registry) (id : Bytes) :
    (ids.foldl Registry.remove r).byId[id]? = if id ∈ ids then none else r.byId[id]? := by
  induction ids generalizing r with
  | nil => simp
  | cons first ids ih =>
    rw [List.foldl_cons, ih, get_remove]
    by_cases hid : id = first
    · simp [hid]
    · simp [hid]

/-- A sweep that nobody interrupts drops the expired entries and keeps the others. -/
theorem get_sweep (order : MapOrder Bytes) (now : Int) (id : Bytes) :
    (r.sweep order now).2.byId[id]? = (r.byId[id]?).filter fun e => now < e.expiresAt := by
  rw [sweep, get_foldl_remove]
  cases hid : r.byId[id]? with
  | none => simp
  | some e =>
    rw [Option.filter_some]
    by_cases hnow : now < e.expiresAt
    · have hkept : id ∉ r.expiredIds order now := by
        rw [mem_expiredIds, hid]
        rintro ⟨_, hsome, hle⟩
        obtain rfl := Option.some.inj hsome
        omega
      simp [hkept, hnow]
    · have hgone : id ∈ r.expiredIds order now :=
        (mem_expiredIds order now id).mpr ⟨e, hid, not_lt.mp hnow⟩
      simp [hgone, hnow]

/-! ## Runs -/

/-- What a lookup answers. -/
structure Answers (r : Registry) : Prop where
  registered : ∀ (id : Bytes) (e : Entry) (input : Bytes) (now : Int), r.byId[id]? = some e →
    normalize input = some e.code →
    r.lookup input now = if now < e.expiresAt then .ok e else .error .expired
  unknown : ∀ (input : Bytes) (now : Int),
    (∀ (id : Bytes) (e : Entry), r.byId[id]? = some e → normalize input ≠ some e.code) →
    r.lookup input now = .error .notFound

theorem Consistent.answers (h : Consistent r) : Answers r where
  registered id e input now hid hcode := by
    simp only [lookup, hcode, h.find_code hid]
  unknown input now hnone := by
    unfold lookup
    cases hcode : normalize input with
    | none => rfl
    | some code =>
      cases hfind : r.find code with
      | none => simp only [hfind]
      | some e =>
        obtain ⟨hid, rfl⟩ := h.of_find hfind
        exact absurd hcode (hnone e.id e hid)

/-- A critical section of the registry. -/
inductive Call where
  /-- `Add`, with the bytes each attempt draws. -/
  | add (random : Nat → Option (Fin Codes.length → UInt8)) (id : Bytes) (expiresAt : Int)
  | remove (id : Bytes)
  /-- The first pass of a `Sweep`. -/
  | sweep (order : MapOrder Bytes) (now : Int)
  /-- One removal of the second pass of a `Sweep`. -/
  | swept (id : Bytes)

structure Use where
  registry : Registry := {}
  /-- The ids that sweeps have collected and not yet removed. -/
  sweeping : List Bytes := []

def Use.step (u : Use) : Call → Option Use
  | .add random id expiresAt =>
    match u.registry.add random id expiresAt with
    | none => some u
    | some (r, _) => some { u with registry := r }
  | .remove id => some { u with registry := u.registry.remove id }
  | .sweep order now => some { u with sweeping := u.sweeping ++ u.registry.expiredIds order now }
  | .swept id =>
    if u.sweeping.contains id then
      some { registry := u.registry.remove id, sweeping := u.sweeping.erase id }
    else none

/-- The registry under all orders of its callers. -/
def machine : Machine Use Call where
  init := {}
  step := Use.step

/-- What a call does to the registry. -/
theorem step_cases {u u' : Use} {c : Call} (h : u.step c = some u') :
    u'.registry = u.registry ∨ (∃ id, u'.registry = u.registry.remove id) ∨
      ∃ random id expiresAt e, u.registry.add random id expiresAt = some (u'.registry, e) := by
  cases c with
  | add random id expiresAt =>
    simp only [Use.step] at h
    split at h
    · obtain rfl := Option.some.inj h
      exact .inl rfl
    · rename_i r e hadd
      obtain rfl := Option.some.inj h
      exact .inr (.inr ⟨random, id, expiresAt, e, hadd⟩)
  | remove id =>
    obtain rfl := Option.some.inj h
    exact .inr (.inl ⟨id, rfl⟩)
  | sweep order now =>
    obtain rfl := Option.some.inj h
    exact .inl rfl
  | swept id =>
    simp only [Use.step] at h
    split at h
    · obtain rfl := Option.some.inj h
      exact .inr (.inl ⟨id, rfl⟩)
    · cases h

/-- The calls of an uninterrupted `Sweep` lead where `sweep` says. -/
theorem exec_sweep (u : Use) (order : MapOrder Bytes) (now : Int) :
    machine.exec (.sweep order now :: (u.registry.expiredIds order now).map .swept)
      { u with sweeping := [] } =
      some { registry := (u.registry.sweep order now).2, sweeping := [] } := by
  have hrest : ∀ (ids : List Bytes) (r : Registry), machine.exec (ids.map .swept)
      { registry := r, sweeping := ids } =
      some { registry := ids.foldl Registry.remove r, sweeping := [] } := by
    intro ids
    induction ids with
    | nil => exact fun _ => rfl
    | cons id ids ih =>
      intro r
      have hfirst : machine.step { registry := r, sweeping := id :: ids } (.swept id) =
          some { registry := r.remove id, sweeping := ids } := by
        simp [machine, Use.step]
      rw [List.map_cons, Machine.exec, hfirst]
      exact ih (r.remove id)
  exact hrest _ _

/-- Both indexes hold the same entries, and all codes are canonical. -/
structure Sound (r : Registry) : Prop where
  consistent : Consistent r
  canonical : ∀ (id : Bytes) (e : Entry), r.byId[id]? = some e → Canonical e.code

theorem canonical_freeCode {random : Nat → Option (Fin Codes.length → UInt8)} {attempts : List Nat}
    {code : Bytes} (h : r.freeCode random attempts = some code) : Canonical code := by
  induction attempts with
  | nil => cases h
  | cons attempt rest ih =>
    simp only [freeCode] at h
    split at h
    · cases h
    · rename_i drawn hdrawn
      split at h
      · exact ih h
      · obtain rfl := Option.some.inj h
        exact canonical_generate hdrawn

/-- A new entry has a canonical code. -/
theorem canonical_add {random : Nat → Option (Fin Codes.length → UInt8)} {id : Bytes}
    {expiresAt : Int} {r' : Registry} {e : Entry} (h : r.add random id expiresAt = some (r', e)) :
    Canonical e.code := by
  unfold add at h
  split at h
  · cases h
  · cases hcode : r.freeCode random (List.range 16) with
    | none => simp [hcode] at h
    | some code =>
      simp only [hcode, Option.some.injEq, Prod.mk.injEq] at h
      obtain ⟨-, rfl⟩ := h
      exact canonical_freeCode hcode

theorem Sound.add (h : Sound r) {random : Nat → Option (Fin Codes.length → UInt8)} {id : Bytes}
    {expiresAt : Int} {r' : Registry} {e : Entry} (hadd : r.add random id expiresAt = some (r', e)) :
    Sound r' := by
  refine ⟨h.consistent.add hadd, fun id' e' hget => ?_⟩
  obtain ⟨-, -, -, -, hbyId, -⟩ := of_add hadd
  rw [hbyId, OrderedMap.get_insert] at hget
  split at hget
  · obtain rfl := Option.some.inj hget
    exact canonical_add hadd
  · exact h.canonical id' e' hget

theorem Sound.remove (h : Sound r) (id : Bytes) : Sound (r.remove id) := by
  refine ⟨h.consistent.remove id, fun id' e' hget => ?_⟩
  rw [get_remove] at hget
  split at hget
  · cases hget
  · exact h.canonical id' e' hget

theorem sound_run {calls : List Call} {u : Use} (run : machine.Run Machine.anyStep calls u) :
    Sound u.registry := by
  refine run.invariant (fun u => Sound u.registry) ⟨consistent_empty, fun _ _ h => ?_⟩ ?_
  · simp [machine] at h
  · intro u c u' h _ hstep
    obtain heq | ⟨id, heq⟩ | ⟨random, id, expiresAt, e, hadd⟩ := step_cases hstep
    · rw [heq]
      exact h
    · rw [heq]
      exact h.remove id
    · exact h.add hadd

/-- In every state the indexes agree, a failed `Add` changes nothing, and lookups are right. -/
theorem registry_run {calls : List Call} {u : Use} (run : machine.Run Machine.anyStep calls u) :
    Consistent u.registry ∧ Answers u.registry ∧
      ∀ random id expiresAt, u.registry.add random id expiresAt = none →
        machine.step u (.add random id expiresAt) = some u := by
  have hconsistent := (sound_run run).consistent
  refine ⟨hconsistent, hconsistent.answers, fun random id expiresAt hfail => ?_⟩
  simp only [machine, Use.step, hfail]

/-- Two shares draw the same code. -/
def collisionRun : List Call :=
  [.add (fun _ => some fun _ => 0) [1] 5, .add (fun _ => some fun _ => 0) [2] 5]

theorem exec_collisionRun : (machine.exec collisionRun machine.init).map (·.registry.byId.toList) =
    some [([1], ⟨[1], ascii "0000000000", 5⟩)] := by
  decide

theorem registry_run_collision : ∃ u, machine.Run Machine.anyStep collisionRun u ∧
    u.registry.byId.toList = [([1], ⟨[1], ascii "0000000000", 5⟩)] ∧
    Consistent u.registry ∧ Answers u.registry ∧
      ∀ random id expiresAt, u.registry.add random id expiresAt = none →
        machine.step u (.add random id expiresAt) = some u := by
  obtain ⟨u, hexec, htable⟩ := Option.map_eq_some_iff.mp exec_collisionRun
  have run := Machine.run_of_exec hexec
  exact ⟨u, run, htable, registry_run run⟩

/-! ## What the client asks for -/

/-- An entry is found by every text that the client takes for its code. -/
theorem Sound.lookup_client (h : Sound r) {id : Bytes} {e : Entry} {input : Bytes} {now : Int}
    (hid : r.byId[id]? = some e) (hnow : now < e.expiresAt) (hread : Share.normalize input = e.code) :
    r.lookup input now = .ok e := by
  have hcode := (normalize_client_eq_iff (h.canonical id e hid)).mp hread
  rw [h.consistent.answers.registered id e input now hid hcode, if_pos hnow]

/-- Client and server read a text alike, and the server finds its codes in every spelling that
    the client accepts. -/
theorem reads_alike (s : Bytes) :
    (Share.normalize s ≠ [] ↔ (normalize s).isSome) ∧
      (∀ code, normalize s = some code → Share.normalize s = code ∧ Canonical code ∧
        Share.normalize code = code ∧ normalize code = some code) ∧
      ∀ calls u, machine.Run Machine.anyStep calls u → ∀ (id : Bytes) (e : Entry) (now : Int),
        u.registry.byId[id]? = some e → now < e.expiresAt →
        (Share.normalize s = e.code → u.registry.lookup s now = .ok e) ∧
          Share.normalize (Share.format e.code) = e.code ∧
          u.registry.lookup (Share.format e.code) now = .ok e := by
  refine ⟨?_, fun code hcode => ?_, fun calls u run id e now hid hnow => ?_⟩
  · rw [normalize_client]
    cases hread : normalize s with
    | none => simp
    | some code =>
      have hcanonical := canonical_of_normalize hread
      have hne : code ≠ [] := by
        rintro rfl
        exact absurd hcanonical.size (by decide)
      simpa using hne
  · have hcanonical := canonical_of_normalize hcode
    have hfixed := normalize_canonical hcanonical
    exact ⟨(normalize_client_eq_iff hcanonical).mpr hcode, hcanonical,
      (normalize_client_eq_iff hcanonical).mpr hfixed, hfixed⟩
  · have hsound := sound_run run
    have hcanonical := hsound.canonical id e hid
    have hformat : Share.normalize (Share.format e.code) = e.code := by
      rw [normalize_client_eq_iff hcanonical, format_client]
      exact normalize_format hcanonical
    exact ⟨hsound.lookup_client hid hnow, hformat, hsound.lookup_client hid hnow hformat⟩

/-- Both read the look-alike letters as digits. -/
theorem reads_alike_letters :
    Share.normalize (ascii "oil7qw-p9x2m") = [] ∧
      Share.normalize (ascii " OiL7q-wp9x_2") = ascii "0117QWP9X2" ∧
      Share.normalize (ascii "0117QWP9X2") = ascii "0117QWP9X2" := by
  have hread : normalize (ascii " OiL7q-wp9x_2") = some (ascii "0117QWP9X2") := by decide +kernel
  obtain ⟨hsame, -, hfixed, -⟩ := (reads_alike (ascii " OiL7q-wp9x_2")).2.1 _ hread
  exact ⟨by decide +kernel, hsame, hfixed⟩

end Registry

end CrossTransfer.Signal
