/-
  Maps of bounded size that drop the entry not used for the longest time.
-/
import Mathlib

namespace Lib

variable {K V : Type*} [DecidableEq K]

/-- The entry used last stands in front. -/
structure LruCache (K V : Type*) where
  capacity : ℕ
  positive : 0 < capacity
  entries : List (K × V)
  nodup : (entries.map Prod.fst).Nodup
  bounded : entries.length ≤ capacity

namespace LruCache

variable (c : LruCache K V) {k k' : K} {v : V} {e : K × V}

/-- The cache without entries. -/
def new (capacity : ℕ) (h : 0 < capacity) : LruCache K V :=
  ⟨capacity, h, [], List.nodup_nil, Nat.zero_le _⟩

def find? (k : K) : Option V := (c.entries.find? fun e => e.1 = k).map Prod.snd

/-- The entries of the other keys. -/
def others (k : K) : List (K × V) := c.entries.filter fun e => e.1 ≠ k

theorem mem_others : e ∈ c.others k ↔ e ∈ c.entries ∧ e.1 ≠ k := by
  simp [others]

theorem others_sublist : (c.others k).Sublist c.entries := List.filter_sublist

theorem nodup_cons_others : (((k, v) :: c.others k).map Prod.fst).Nodup := by
  rw [List.map_cons, List.nodup_cons]
  refine ⟨fun h => ?_, c.nodup.sublist (c.others_sublist.map _)⟩
  obtain ⟨e, he, hk⟩ := List.mem_map.1 h
  exact (c.mem_others.1 he).2 hk

def pop (k : K) : LruCache K V where
  capacity := c.capacity
  positive := c.positive
  entries := c.others k
  nodup := c.nodup.sublist (c.others_sublist.map _)
  bounded := c.others_sublist.length_le.trans c.bounded

/-- The entry replaces one with the same key; where there is no room, the last one is dropped. -/
def put (k : K) (v : V) : LruCache K V where
  capacity := c.capacity
  positive := c.positive
  entries := ((k, v) :: c.others k).take c.capacity
  nodup := c.nodup_cons_others.sublist ((List.take_sublist _ _).map _)
  bounded := List.length_take_le _ _

/-- What is found counts as used. -/
def get (k : K) : Option V × LruCache K V :=
  match c.find? k with
  | some v => (some v, c.put k v)
  | none => (none, c)

theorem ne_of_find?_eq_none (h : c.find? k = none) (he : e ∈ c.entries) : e.1 ≠ k := by
  have hall := List.find?_eq_none.1 (Option.map_eq_none_iff.1 h) e he
  simpa using hall

@[simp] theorem mem_pop : e ∈ (c.pop k).entries ↔ e ∈ c.entries ∧ e.1 ≠ k := c.mem_others

theorem mem_put (h : e ∈ (c.put k v).entries) : e = (k, v) ∨ e ∈ c.entries ∧ e.1 ≠ k := by
  rcases List.mem_cons.1 (List.mem_of_mem_take h) with h | h
  · exact .inl h
  · exact .inr (c.mem_others.1 h)

theorem get_of_find?_eq_some (h : c.find? k = some v) : c.get k = (some v, c.put k v) := by
  rw [get, h]

theorem get_of_find?_eq_none (h : c.find? k = none) : c.get k = (none, c) := by
  rw [get, h]

end LruCache

end Lib
