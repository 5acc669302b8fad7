/-
  Maps filled by successive insertions: a later entry replaces an earlier one
  with the same key.
-/
import Mathlib

namespace Lib

variable {K V : Type*} [DecidableEq K]

/-- A finite map, as the lookups it answers. -/
abbrev Lookup (K V : Type*) := K → Option V

namespace Lookup

/-- The map without entries. -/
def empty : Lookup K V := fun _ => none

/-- Insertion; the entry replaces one with the same key. -/
def insert (m : Lookup K V) (k : K) (v : V) : Lookup K V := Function.update m k (some v)

/-- The map collected from a list of entries. -/
def ofList (l : List (K × V)) : Lookup K V := l.foldl (fun m e => m.insert e.1 e.2) empty

@[simp] theorem insert_self (m : Lookup K V) (k : K) (v : V) : m.insert k v k = some v := by
  simp [insert]

theorem insert_ne (m : Lookup K V) {k k' : K} (v : V) (h : k' ≠ k) : m.insert k v k' = m k' := by
  simp [insert, h]

theorem ofList_concat (l : List (K × V)) (e : K × V) :
    ofList (l ++ [e]) = (ofList l).insert e.1 e.2 := by
  simp [ofList, List.foldl_append]

theorem mem_of_ofList {l : List (K × V)} {k : K} {v : V} (h : ofList l k = some v) :
    (k, v) ∈ l := by
  induction l using List.reverseRecOn with
  | nil => simp [ofList, empty] at h
  | append_singleton l e ih =>
    rw [ofList_concat] at h
    by_cases hk : k = e.1
    · subst hk
      rw [insert_self, Option.some_inj] at h
      simp [← h]
    · rw [insert_ne _ _ hk] at h
      exact List.mem_append_left _ (ih h)

theorem ofList_eq_none {l : List (K × V)} {k : K} (h : k ∉ l.map Prod.fst) :
    ofList l k = none := by
  rcases hv : ofList l k with _ | v
  · rfl
  · exact absurd (List.mem_map_of_mem (mem_of_ofList hv)) h

theorem ofList_isSome {l : List (K × V)} {k : K} (h : k ∈ l.map Prod.fst) :
    ∃ v, ofList l k = some v := by
  induction l using List.reverseRecOn with
  | nil => simp at h
  | append_singleton l e ih =>
    rw [ofList_concat]
    by_cases hk : k = e.1
    · exact ⟨e.2, by rw [hk, insert_self]⟩
    · simp only [List.map_append, List.map_cons, List.map_nil, List.mem_append,
        List.mem_singleton, hk, or_false] at h
      rw [insert_ne _ _ hk]; exact ih h

/-- Entries that agree on equal keys are all found, whatever their order. -/
theorem ofList_eq_some {l : List (K × V)}
    (hl : ∀ e ∈ l, ∀ e' ∈ l, e.1 = e'.1 → e.2 = e'.2) {k : K} {v : V} (h : (k, v) ∈ l) :
    ofList l k = some v := by
  obtain ⟨w, hw⟩ : ∃ w, ofList l k = some w := ofList_isSome (List.mem_map_of_mem h)
  rw [hw, show w = v from hl _ (mem_of_ofList hw) _ h rfl]

end Lookup

end Lib
