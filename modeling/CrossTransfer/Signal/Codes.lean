import CrossTransfer.Library.OrderedMap
import CrossTransfer.Transfer.PathSanitize

/-! # The code registry

`codes.go`: the spelling of take-codes and the table that leads from a code to its share, with an
index by the first four symbols. `Consistent` says that both indexes hold the same entries; every
operation keeps it, and then a lookup finds the entry of a code exactly when there is one.
-/

namespace CrossTransfer.Signal

open CrossTransfer.Library
open CrossTransfer.Transfer

namespace Codes

/-- `Alphabet`, Crockford Base32. -/
def alphabet : Bytes := ascii "0123456789ABCDEFGHJKMNPQRSTVWXYZ"

/-- `Length`. -/
def length : Nat := 10

/-- `PrefixLen`. -/
def prefixLen : Nat := 4

/-- `Alphabet[alphabetIndex[c]]`, with the aliases for confusable characters. -/
def symbol (c : UInt8) : Option UInt8 :=
  if c = 79 then some 48  -- O
  else if c = 73 ∨ c = 76 then some 49  -- I, L
  else if alphabet.contains c then some c
  else none

/-- The loop of `Normalize`; `out` are the symbols so far. -/
def normalizeFrom (out : Bytes) : Bytes → Option Bytes
  | [] => if out.length = length then some out else none
  | c :: rest =>
    if c = 45 ∨ c = 32 ∨ c = 9 ∨ c = 95 then normalizeFrom out rest
    else
      let upper := if 97 ≤ c ∧ c ≤ 122 then c - 32 else c
      match symbol upper with
      | none => none
      | some s => if length ≤ out.length then none else normalizeFrom (out ++ [s]) rest

/-- `Normalize`; `none` is `ErrInvalidCode`. -/
def normalize (input : Bytes) : Option Bytes := normalizeFrom [] input

/-- `Generate`, from the random bytes; `none` when they cannot be read. -/
def generate (random : Option (Fin length → UInt8)) : Option Bytes :=
  random.map fun buf => List.ofFn fun i => alphabet.getD (buf i &&& 0x1f).toNat 0

/-- `Format`. -/
def format (code : Bytes) : Bytes :=
  if code.length ≠ length then code else code.take 5 ++ [45] ++ code.drop 5

structure Entry where
  /-- Share id. -/
  id : Bytes
  code : Bytes
  expiresAt : Int
deriving DecidableEq, Repr

/-- `Split`, first part. -/
def prefixOf (code : Bytes) : Bytes := code.take prefixLen

/-- `Split`, second part. -/
def keyOf (code : Bytes) : Bytes := code.drop prefixLen

theorem eq_of_split {code code' : Bytes} (hpre : prefixOf code = prefixOf code')
    (hkey : keyOf code = keyOf code') : code = code' := by
  rw [← List.take_append_drop prefixLen code, ← List.take_append_drop prefixLen code']
  exact congrArg₂ _ hpre hkey

end Codes

open Codes

structure Registry where
  byPrefix : OrderedMap Bytes (List Entry) := ∅
  byId : OrderedMap Bytes Entry := ∅

inductive LookupError where
  | notFound
  | expired
deriving DecidableEq, Repr

namespace Registry

variable (r : Registry)

/-- `byPrefix[prefix]`, empty if absent. -/
def bucket (head : Bytes) : List Entry := (r.byPrefix[head]?).getD []

/-- `findLocked`: the last entry of the bucket with the key of the code. -/
def find (code : Bytes) : Option Entry :=
  (r.bucket (prefixOf code)).foldl
    (fun found e => if keyOf e.code = keyOf code then some e else found) none

/-- The loop of `Add`: the code of the first attempt that draws a free one. -/
def freeCode (random : Nat → Option (Fin Codes.length → UInt8)) : List Nat → Option Bytes
  | [] => none
  | attempt :: rest =>
    match generate (random attempt) with
    | none => none
    | some code => if (r.find code).isSome then freeCode random rest else some code

/-- `Add`; `random` are the bytes that each attempt draws. -/
def add (random : Nat → Option (Fin Codes.length → UInt8)) (id : Bytes) (expiresAt : Int) :
    Option (Registry × Entry) :=
  if id ∈ r.byId then none
  else
    match r.freeCode random (List.range 16) with
    | none => none
    | some code =>
      let e : Entry := ⟨id, code, expiresAt⟩
      some ({ byPrefix := r.byPrefix.insert (prefixOf code) (r.bucket (prefixOf code) ++ [e])
              byId := r.byId.insert id e }, e)

/-- `Lookup`. -/
def lookup (input : Bytes) (now : Int) : Except LookupError Entry :=
  match normalize input with
  | none => .error .notFound
  | some code =>
    match r.find code with
    | none => .error .notFound
    | some e => if now < e.expiresAt then .ok e else .error .expired

/-- `Remove`. -/
def remove (id : Bytes) : Registry :=
  match r.byId[id]? with
  | none => r
  | some e =>
    let rest := (r.bucket (prefixOf e.code)).erase e
    { byPrefix := if rest.isEmpty then r.byPrefix.erase (prefixOf e.code)
        else r.byPrefix.insert (prefixOf e.code) rest
      byId := r.byId.erase id }

/-- Both indexes hold the same entries, each once, and no two have the same code. -/
structure Consistent (r : Registry) : Prop where
  ids : ∀ (id : Bytes) (e : Entry), r.byId[id]? = some e → e.id = id
  indexed : ∀ (head : Bytes) (e : Entry),
    e ∈ r.bucket head ↔ prefixOf e.code = head ∧ r.byId[e.id]? = some e
  nodup : ∀ head, (r.bucket head).Nodup
  codes : ∀ (id id' : Bytes) (e e' : Entry), r.byId[id]? = some e → r.byId[id']? = some e' →
    e.code = e'.code → e = e'
  filled : ∀ head : Bytes, r.byPrefix[head]? ≠ some []

theorem consistent_empty : Consistent {} := by
  constructor
  all_goals simp [bucket]

variable {r}

/-! ## Lookup -/

/-- A loop that keeps the last match finds one if there is any. -/
theorem foldl_last_eq_none (p : Entry → Prop) [DecidablePred p] (entries : List Entry)
    (found : Option Entry) :
    entries.foldl (fun found e => if p e then some e else found) found = none ↔
      found = none ∧ ∀ e ∈ entries, ¬ p e := by
  induction entries generalizing found with
  | nil => simp
  | cons e entries ih =>
    rw [List.foldl_cons, ih, List.forall_mem_cons]
    split <;> simp [*]

theorem foldl_last_eq_some (p : Entry → Prop) [DecidablePred p] (entries : List Entry)
    {found : Option Entry} {e : Entry}
    (h : entries.foldl (fun found e => if p e then some e else found) found = some e) :
    found = some e ∨ e ∈ entries ∧ p e := by
  induction entries generalizing found with
  | nil => exact .inl h
  | cons first entries ih =>
    rw [List.foldl_cons] at h
    obtain hfound | ⟨hmem, hp⟩ := ih h
    · split at hfound
      · rename_i hp
        obtain rfl := Option.some.inj hfound
        exact .inr ⟨List.mem_cons_self, hp⟩
      · exact .inl hfound
    · exact .inr ⟨List.mem_cons_of_mem _ hmem, hp⟩

/-- The entry that is found is the one with the code. -/
theorem Consistent.of_find (h : Consistent r) {code : Bytes} {e : Entry} (hfind : r.find code = some e) :
    r.byId[e.id]? = some e ∧ e.code = code := by
  obtain hnone | ⟨hmem, hkey⟩ := foldl_last_eq_some _ _ hfind
  · cases hnone
  · obtain ⟨hpre, hid⟩ := (h.indexed _ e).mp hmem
    exact ⟨hid, eq_of_split hpre hkey⟩

theorem Consistent.find_code (h : Consistent r) {id : Bytes} {e : Entry} (hid : r.byId[id]? = some e) :
    r.find e.code = some e := by
  have hid' : r.byId[e.id]? = some e := by rw [h.ids id e hid]; exact hid
  cases hfind : r.find e.code with
  | none =>
    have hmem := (h.indexed (prefixOf e.code) e).mpr ⟨rfl, hid'⟩
    exact absurd rfl (((foldl_last_eq_none _ _ _).mp hfind).2 e hmem)
  | some e' =>
    obtain ⟨hid'', hcode⟩ := h.of_find hfind
    rw [h.codes _ _ e' e hid'' hid' hcode]

/-- A lookup that succeeds finds an entry that has not expired. -/
theorem Consistent.of_lookup (h : Consistent r) {input : Bytes} {now : Int} {e : Entry}
    (hlookup : r.lookup input now = .ok e) :
    r.byId[e.id]? = some e ∧ normalize input = some e.code ∧ now < e.expiresAt := by
  unfold lookup at hlookup
  cases hcode : normalize input with
  | none => simp [hcode] at hlookup
  | some code =>
    simp only [hcode] at hlookup
    cases hfind : r.find code with
    | none => simp [hfind] at hlookup
    | some e' =>
      simp only [hfind] at hlookup
      split at hlookup
      · rename_i hnow
        obtain rfl : e' = e := Except.ok.inj hlookup
        obtain ⟨hid, rfl⟩ := h.of_find hfind
        exact ⟨hid, rfl, hnow⟩
      · cases hlookup

/-- The code of an entry is found until it expires. -/
theorem Consistent.lookup_code (h : Consistent r) {id input : Bytes} {now : Int} {e : Entry}
    (hid : r.byId[id]? = some e) (hcode : normalize input = some e.code) (hnow : now < e.expiresAt) :
    r.lookup input now = .ok e := by
  simp [lookup, hcode, h.find_code hid, hnow]

/-! ## Add -/

theorem of_freeCode {random : Nat → Option (Fin Codes.length → UInt8)} {attempts : List Nat}
    {code : Bytes} (h : r.freeCode random attempts = some code) : r.find code = none := by
  induction attempts with
  | nil => cases h
  | cons attempt rest ih =>
    simp only [freeCode] at h
    split at h
    · cases h
    · rename_i drawn _
      split at h
      · exact ih h
      · rename_i hfree
        obtain rfl := Option.some.inj h
        simpa using hfree

/-- What `Add` does when it succeeds. -/
theorem of_add {random : Nat → Option (Fin Codes.length → UInt8)} {id : Bytes} {expiresAt : Int}
    {r' : Registry} {e : Entry} (h : r.add random id expiresAt = some (r', e)) :
    r.byId[id]? = none ∧ r.find e.code = none ∧ e.id = id ∧ e.expiresAt = expiresAt ∧
      r'.byId = r.byId.insert id e ∧
      r'.byPrefix = r.byPrefix.insert (prefixOf e.code) (r.bucket (prefixOf e.code) ++ [e]) := by
  unfold add at h
  split at h
  · cases h
  · rename_i hnew
    cases hcode : r.freeCode random (List.range 16) with
    | none => simp [hcode] at h
    | some code =>
      simp only [hcode, Option.some.injEq, Prod.mk.injEq] at h
      obtain ⟨rfl, rfl⟩ := h
      refine ⟨?_, of_freeCode hcode, rfl, rfl, rfl, rfl⟩
      simpa using hnew

theorem Consistent.add (h : Consistent r) {random : Nat → Option (Fin Codes.length → UInt8)}
    {id : Bytes} {expiresAt : Int} {r' : Registry} {e : Entry}
    (hadd : r.add random id expiresAt = some (r', e)) : Consistent r' := by
  obtain ⟨hnew, hfree, rfl, -, hbyId, hbyPrefix⟩ := of_add hadd
  have hbucket : ∀ head, r'.bucket head =
      if head = prefixOf e.code then r.bucket head ++ [e] else r.bucket head := by
    intro head
    rw [bucket, hbyPrefix, OrderedMap.get_insert]
    split
    · rename_i heq
      rw [heq]
      rfl
    · rfl
  -- The new code is no entry's.
  have hcode : ∀ (id : Bytes) (e' : Entry), r.byId[id]? = some e' → e'.code ≠ e.code := by
    intro id e' hid heq
    have hfound := h.find_code hid
    rw [heq, hfree] at hfound
    cases hfound
  have hid : ∀ e' head, e' ∈ r.bucket head → e'.id ≠ e.id := by
    intro e' head hmem heq
    have hold := ((h.indexed head e').mp hmem).2
    rw [heq, hnew] at hold
    cases hold
  refine ⟨?_, ?_, ?_, ?_, ?_⟩
  · intro id e' hget
    rw [hbyId, OrderedMap.get_insert] at hget
    split at hget
    · rename_i heq
      obtain rfl := Option.some.inj hget
      exact heq.symm
    · exact h.ids id e' hget
  · intro head e'
    rw [hbucket, hbyId, OrderedMap.get_insert]
    by_cases hhead : head = prefixOf e.code
    · rw [if_pos hhead, List.mem_append, List.mem_singleton, h.indexed]
      by_cases heq : e'.id = e.id
      · rw [if_pos heq]
        refine ⟨?_, fun ⟨_, hsome⟩ => .inr (Option.some.inj hsome).symm⟩
        rintro (⟨-, hold⟩ | rfl)
        · rw [heq, hnew] at hold
          cases hold
        · exact ⟨hhead.symm, rfl⟩
      · rw [if_neg heq, or_iff_left fun hsame => heq (by rw [hsame])]
    · rw [if_neg hhead, h.indexed]
      by_cases heq : e'.id = e.id
      · rw [if_pos heq]
        refine ⟨fun ⟨_, hold⟩ => ?_, fun ⟨hpre, hsome⟩ => ?_⟩
        · rw [heq, hnew] at hold
          cases hold
        · rw [← Option.some.inj hsome] at hpre
          exact absurd hpre.symm hhead
      · rw [if_neg heq]
  · intro head
    rw [hbucket]
    split
    · refine List.nodup_append.mpr ⟨h.nodup head, List.nodup_singleton e, fun e' hmem e'' hlast => ?_⟩
      rw [List.mem_singleton] at hlast
      subst hlast
      exact fun heq => hid e' head hmem (heq ▸ rfl)
    · exact h.nodup head
  · intro id id' e' e'' hget hget' heq
    rw [hbyId, OrderedMap.get_insert] at hget hget'
    split at hget
    · obtain rfl := Option.some.inj hget
      split at hget'
      · exact Option.some.inj hget'
      · exact absurd heq.symm (hcode id' e'' hget')
    · split at hget'
      · obtain rfl := Option.some.inj hget'
        exact absurd heq (hcode id e' hget)
      · exact h.codes id id' e' e'' hget hget' heq
  · intro head hempty
    rw [hbyPrefix, OrderedMap.get_insert] at hempty
    split at hempty
    · simp at hempty
    · exact h.filled head hempty

/-! ## Remove -/

theorem get_remove (id a : Bytes) :
    (r.remove id).byId[a]? = if a = id then none else r.byId[a]? := by
  unfold remove
  cases hid : r.byId[id]? with
  | none =>
    simp only
    split
    · rename_i heq
      rw [heq, hid]
    · rfl
  | some e => simp

theorem bucket_remove (id head : Bytes) {e : Entry} (hid : r.byId[id]? = some e) :
    (r.remove id).bucket head =
      if head = prefixOf e.code then (r.bucket head).erase e else r.bucket head := by
  unfold remove bucket
  simp only [hid]
  split
  · rename_i hempty
    simp only [OrderedMap.get_erase]
    split
    · rename_i heq
      rw [heq]
      simpa using hempty.symm
    · rfl
  · simp only [OrderedMap.get_insert]
    split
    · rename_i heq
      rw [heq]
      rfl
    · rfl

theorem Consistent.remove (h : Consistent r) (id : Bytes) : Consistent (r.remove id) := by
  cases hid : r.byId[id]? with
  | none =>
    have hsame : r.remove id = r := by simp [Registry.remove, hid]
    rw [hsame]
    exact h
  | some e =>
    obtain rfl := h.ids id e hid
    have hget := get_remove (r := r) e.id
    have hbucket := fun head => bucket_remove e.id head hid
    refine ⟨?_, ?_, ?_, ?_, ?_⟩
    · intro id e' hsome
      rw [hget] at hsome
      split at hsome
      · cases hsome
      · exact h.ids id e' hsome
    · intro head e'
      rw [hbucket, hget]
      by_cases heq : e'.id = e.id
      · -- Only the removed entry has its id.
        rw [if_pos heq]
        have hall : ∀ head, e' ∈ r.bucket head → e' = e := by
          intro head hmem
          have hold := ((h.indexed head e').mp hmem).2
          rw [heq, hid] at hold
          exact (Option.some.inj hold).symm
        refine ⟨fun hmem => ?_, fun hnone => by cases hnone.2⟩
        split at hmem
        · have := hall head (List.mem_of_mem_erase hmem)
          subst this
          exact absurd hmem (h.nodup head).not_mem_erase
        · rename_i hhead
          have := hall head hmem
          subst this
          exact absurd ((h.indexed head e').mp hmem).1.symm hhead
      · rw [if_neg heq]
        split
        · rw [(h.nodup head).mem_erase_iff, h.indexed]
          exact and_iff_right fun h => heq (h ▸ rfl)
        · exact h.indexed head e'
    · intro head
      rw [hbucket]
      split
      · exact (h.nodup head).erase e
      · exact h.nodup head
    · intro id id' e' e'' hsome hsome' heq
      rw [hget] at hsome hsome'
      split at hsome
      · cases hsome
      · split at hsome'
        · cases hsome'
        · exact h.codes id id' e' e'' hsome hsome' heq
    · intro head hempty
      unfold Registry.remove at hempty
      simp only [hid] at hempty
      split at hempty
      · simp only [OrderedMap.get_erase] at hempty
        split at hempty
        · cases hempty
        · exact h.filled head hempty
      · rename_i hrest
        simp only [OrderedMap.get_insert] at hempty
        split at hempty
        · rw [Option.some.inj hempty] at hrest
          exact hrest rfl
        · exact h.filled head hempty

end Registry

end CrossTransfer.Signal
