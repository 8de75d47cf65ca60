import Mathlib.Data.List.MinMax

/-! # Loops over an ordered map

A map whose iteration order is the order of its keys, and the two ways a loop picks one of its
entries: the first that passes a test (`firstKey`), and among those that pass it the first with
the least rank (`leastKey`).
-/

namespace CrossTransfer.Library

/-- A map that is iterated in the order of its keys. -/
abbrev OrderedMap (κ β : Type*) [Ord κ] := Std.ExtTreeMap κ β compare

namespace OrderedMap

variable {κ β ρ : Type*} [Ord κ] [Std.TransOrd κ] [Std.LawfulEqOrd κ]
  (m : OrderedMap κ β) (p : β → Bool)

section

variable [DecidableEq κ]

@[simp] theorem get_insert (k a : κ) (v : β) :
    (m.insert k v)[a]? = if a = k then some v else m[a]? := by
  simp only [Std.ExtTreeMap.getElem?_insert, Std.LawfulEqCmp.compare_eq_iff_eq, eq_comm (a := k)]

@[simp] theorem get_erase (k a : κ) : (m.erase k)[a]? = if a = k then none else m[a]? := by
  simp only [Std.ExtTreeMap.getElem?_erase, Std.LawfulEqCmp.compare_eq_iff_eq, eq_comm (a := k)]

@[simp] theorem get_modify (k a : κ) (f : β → β) :
    (m.modify k f)[a]? = if a = k then m[a]?.map f else m[a]? := by
  rw [Std.ExtTreeMap.getElem?_modify]
  by_cases h : a = k
  · rw [if_pos (Std.LawfulEqCmp.compare_eq_iff_eq.mpr h.symm), if_pos h, h]
  · rw [if_neg (fun heq => h (Std.LawfulEqCmp.compare_eq_iff_eq.mp heq).symm), if_neg h]

end

/-- The first entry, in the order of the keys, that passes a test. -/
def firstKey : Option κ := (m.toList.find? fun e => p e.2).map Prod.fst

/-- Among the entries that pass a test the first one with the least rank. -/
def leastKey [LinearOrder ρ] (rank : β → ρ) : Option κ :=
  ((m.toList.filter fun e => p e.2).argmin fun e => rank e.2).map Prod.fst

variable {m p}

omit [Std.TransOrd κ] in
theorem lt_irrefl (k : κ) : compare k k ≠ .lt := by
  simp [Std.ReflOrd.compare_self]

/-- The entry that is found passes the test and comes before all others that do. -/
theorem of_firstKey {k : κ} (h : firstKey m p = some k) : (∃ v, m[k]? = some v ∧ p v = true) ∧
    ∀ (k' : κ) (v' : β), m[k']? = some v' → p v' = true → k' = k ∨ compare k k' = .lt := by
  obtain ⟨⟨k, v⟩, hfind, rfl⟩ := Option.map_eq_some_iff.mp h
  obtain ⟨hp, before, after, hlist, hbefore⟩ := List.find?_eq_some_iff_append.mp hfind
  have hmem : (k, v) ∈ m.toList := by simp [hlist]
  refine ⟨⟨v, Std.ExtTreeMap.mem_toList_iff_getElem?_eq_some.mp hmem, hp⟩, fun k' v' hk' hp' => ?_⟩
  have hmem' := Std.ExtTreeMap.mem_toList_iff_getElem?_eq_some.mpr hk'
  have ordered := Std.ExtTreeMap.ordered_keys_toList (t := m)
  rw [hlist] at hmem' ordered
  obtain hmem' | hmem' := List.mem_append.mp hmem'
  · have := hbefore _ hmem'
    rw [hp'] at this
    cases this
  · obtain heq | hmem' := List.mem_cons.mp hmem'
    · cases heq
      exact .inl rfl
    · have := (List.pairwise_cons.mp (List.pairwise_append.mp ordered).2.1).1 _ hmem'
      exact .inr this

variable [LinearOrder ρ] {rank : β → ρ}

theorem leastKey_eq_none_iff :
    leastKey m p rank = none ↔ ∀ (k : κ) (v : β), m[k]? = some v → p v = false := by
  rw [leastKey, Option.map_eq_none_iff, List.argmin_eq_none, List.filter_eq_nil_iff]
  refine ⟨fun h k v hk => ?_, fun h e hmem => ?_⟩
  · exact Bool.eq_false_iff.mpr (h (k, v) (Std.ExtTreeMap.mem_toList_iff_getElem?_eq_some.mpr hk))
  · rw [h e.1 e.2 (Std.ExtTreeMap.mem_toList_iff_getElem?_eq_some.mp hmem)]
    exact Bool.noConfusion

/-- The entry that is found passes the test. -/
theorem of_leastKey {k : κ} (h : leastKey m p rank = some k) :
    ∃ v, m[k]? = some v ∧ p v = true := by
  obtain ⟨⟨k, v⟩, hmin, rfl⟩ := Option.map_eq_some_iff.mp h
  obtain ⟨hmem, hp⟩ := List.mem_filter.mp (List.argmin_mem hmin)
  exact ⟨v, Std.ExtTreeMap.mem_toList_iff_getElem?_eq_some.mp hmem, hp⟩

end OrderedMap

end CrossTransfer.Library
