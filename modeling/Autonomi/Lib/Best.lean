/-
  A scan of a list that keeps the best of what it has found, and replaces it
  only by something strictly better.
-/
import Mathlib

namespace Lib

variable {α β K : Type*} [LinearOrder K] {f : α → Option β} {key : β → K} {l : List α} {a : α}
  {b b₀ : β}

def better (key : β → K) (best : Option β) (b : β) : Option β :=
  if best.all fun b₀ => key b₀ < key b then some b else best

/-- `f` says what is found at an item. -/
def scan (f : α → Option β) (key : β → K) (best : Option β) (a : α) : Option β :=
  match f a with
  | none => best
  | some b => better key best b

/-- `b` is found at the first of the items at which the key is the greatest. -/
def Picks (f : α → Option β) (key : β → K) (l : List α) (b : β) : Prop :=
  ∃ (i : ℕ) (a : α), l[i]? = some a ∧ f a = some b ∧ ∀ (j : ℕ) (a' : α) (b' : β),
    l[j]? = some a' → f a' = some b' → key b' ≤ key b ∧ (j < i → key b' < key b)

@[simp] theorem better_none : better key none b = some b := rfl

theorem better_some_of_lt (h : key b₀ < key b) : better key (some b₀) b = some b := by
  simp [better, h]

theorem better_some_of_le (h : key b ≤ key b₀) : better key (some b₀) b = some b₀ := by
  simp [better, not_lt.2 h]

theorem scan_of_none (h : f a = none) (best : Option β) : scan f key best a = best := by
  rw [scan, h]

theorem scan_of_some (h : f a = some b) (best : Option β) :
    scan f key best a = better key best b := by
  rw [scan, h]

theorem getElem?_concat_eq_some {a' : α} {j : ℕ} :
    (l ++ [a])[j]? = some a' ↔ l[j]? = some a' ∨ j = l.length ∧ a = a' := by
  rcases lt_trichotomy j l.length with h | rfl | h
  · rw [List.getElem?_append_left h]
    exact ⟨Or.inl, fun h' => h'.resolve_right fun h' => h.ne h'.1⟩
  · simp
  · rw [List.getElem?_eq_none (by simpa using h), List.getElem?_eq_none h.le]
    exact ⟨nofun, fun h' => h'.elim nofun fun h' => absurd h'.1 h.ne'⟩

theorem Picks.le (h : Picks f key l b) (ha : a ∈ l) (hb : f a = some b₀) : key b₀ ≤ key b := by
  obtain ⟨j, hj⟩ := List.getElem?_of_mem ha
  obtain ⟨_, _, _, _, hmax⟩ := h
  exact (hmax j a b₀ hj hb).1

theorem Picks.mem (h : Picks f key l b) : ∃ a ∈ l, f a = some b := by
  obtain ⟨i, a, hi, hb, -⟩ := h
  exact ⟨a, List.mem_of_getElem? hi, hb⟩

/-- An item at which nothing better is found. -/
theorem Picks.concat (h : Picks f key l b) (ha : ∀ b', f a = some b' → key b' ≤ key b) :
    Picks f key (l ++ [a]) b := by
  obtain ⟨i, a₀, hi, hb, hbest⟩ := h
  refine ⟨i, a₀, getElem?_concat_eq_some.2 (Or.inl hi), hb, fun j a' b' hj hb' => ?_⟩
  rcases getElem?_concat_eq_some.1 hj with hj | ⟨rfl, rfl⟩
  · exact hbest j a' b' hj hb'
  · obtain ⟨hlt, -⟩ := List.getElem?_eq_some_iff.1 hi
    exact ⟨ha b' hb', fun h => absurd h hlt.not_gt⟩

theorem Picks.of_last (ha : f a = some b) (hl : ∀ a' ∈ l, ∀ b', f a' = some b' → key b' < key b) :
    Picks f key (l ++ [a]) b := by
  refine ⟨l.length, a, getElem?_concat_eq_some.2 (Or.inr ⟨rfl, rfl⟩), ha, fun j a' b' hj hb' => ?_⟩
  rcases getElem?_concat_eq_some.1 hj with hj | ⟨rfl, rfl⟩
  · have := hl a' (List.mem_of_getElem? hj) b' hb'
    exact ⟨this.le, fun _ => this⟩
  · rw [ha] at hb'
    obtain rfl := Option.some.inj hb'
    exact ⟨le_rfl, fun h => absurd h (lt_irrefl _)⟩

/-- **What a scan finds.** -/
theorem foldl_scan_spec (f : α → Option β) (key : β → K) (l : List α) :
    (l.foldl (scan f key) none = none ∧ ∀ a ∈ l, f a = none) ∨
      ∃ b, l.foldl (scan f key) none = some b ∧ Picks f key l b := by
  induction l using List.reverseRecOn with
  | nil => exact Or.inl ⟨rfl, by simp⟩
  | append_singleton l a ih =>
    rw [List.foldl_append, List.foldl_cons, List.foldl_nil]
    cases hfa : f a with
    | none =>
      rw [scan_of_none hfa]
      rcases ih with ⟨hbest, hnone⟩ | ⟨b, hbest, hpicks⟩
      · refine Or.inl ⟨hbest, fun a' ha' => ?_⟩
        rcases List.mem_append.1 ha' with ha' | ha'
        · exact hnone a' ha'
        · rwa [List.mem_singleton.1 ha']
      · exact Or.inr ⟨b, hbest, hpicks.concat fun b' hb' => by rw [hfa] at hb'; cases hb'⟩
    | some b =>
      rw [scan_of_some hfa]
      rcases ih with ⟨hbest, hnone⟩ | ⟨b₀, hbest, hpicks⟩
      · refine Or.inr ⟨b, by rw [hbest, better_none], .of_last hfa fun a' ha' b' hb' => ?_⟩
        rw [hnone a' ha'] at hb'
        cases hb'
      · rw [hbest]
        rcases lt_or_ge (key b₀) (key b) with hlt | hle
        · refine Or.inr ⟨b, better_some_of_lt hlt, .of_last hfa fun a' ha' b' hb' => ?_⟩
          exact (hpicks.le ha' hb').trans_lt hlt
        · refine Or.inr ⟨b₀, better_some_of_le hle, hpicks.concat fun b' hb' => ?_⟩
          rw [hfa] at hb'
          obtain rfl := Option.some.inj hb'
          exact hle

/-- The order of the list has no part in the key that is found. -/
theorem foldl_scan_perm {l' : List α} (h : l.Perm l') :
    (l.foldl (scan f key) none).map key = (l'.foldl (scan f key) none).map key := by
  rcases foldl_scan_spec f key l with ⟨hbest, hnone⟩ | ⟨b, hbest, hpicks⟩ <;>
    rcases foldl_scan_spec f key l' with ⟨hbest', hnone'⟩ | ⟨b', hbest', hpicks'⟩ <;>
    rw [hbest, hbest']
  · obtain ⟨a, ha, hb⟩ := hpicks'.mem
    rw [hnone a (h.mem_iff.2 ha)] at hb
    cases hb
  · obtain ⟨a, ha, hb⟩ := hpicks.mem
    rw [hnone' a (h.mem_iff.1 ha)] at hb
    cases hb
  · obtain ⟨a, ha, hb⟩ := hpicks.mem
    obtain ⟨a', ha', hb'⟩ := hpicks'.mem
    have hle : key b ≤ key b' := hpicks'.le (h.mem_iff.1 ha) hb
    have hge : key b' ≤ key b := hpicks.le (h.mem_iff.2 ha') hb'
    simp [le_antisymm hle hge]

end Lib
