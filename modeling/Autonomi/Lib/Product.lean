/-
  Components that step on their own: a run of all of them is a run of each.
-/
import Autonomi.Lib.Trace

namespace Lib

variable {ι σ α : Type} [DecidableEq ι] {step : ι → σ → α → Option σ} {P : α → Prop}
  {s s' s'' : ι → σ} {as : List (ι × α)} {i : ι}

/-- One component takes a step. -/
def stepAt (step : ι → σ → α → Option σ) (s : ι → σ) (a : ι × α) : Option (ι → σ) :=
  (step a.1 (s a.1) a.2).map (Function.update s a.1)

namespace Trace

theorem component (h : Trace (stepAt step) (fun _ a => P a.2) s as s') (i : ι) :
    ∃ as, Trace (step i) (fun _ a => P a) (s i) as (s' i) := by
  induction h with
  | nil s => exact ⟨[], .nil _⟩
  | @cons s a s₁ as s' hP ha _ ih =>
    obtain ⟨as, ih⟩ := ih
    obtain ⟨s₂, hstep, rfl⟩ := Option.map_eq_some_iff.1 ha
    by_cases hi : i = a.1
    · subst hi
      rw [Function.update_self] at ih
      exact ⟨a.2 :: as, .cons hP hstep ih⟩
    · rw [Function.update_of_ne hi] at ih
      exact ⟨as, ih⟩

/-- One component runs while the others wait. -/
theorem of_component {as : List α} {s₁ : σ}
    (h : Trace (step i) (fun _ a => P a) (s i) as s₁) :
    Trace (stepAt step) (fun _ a => P a.2) s (as.map (Prod.mk i)) (Function.update s i s₁) := by
  generalize hs : s i = s₀ at h
  induction h generalizing s with
  | nil =>
    rw [← hs, Function.update_eq_self]
    exact .nil s
  | @cons s₀ a s₂ as s₁ hP ha _ ih =>
    have hstep : stepAt step s (i, a) = some (Function.update s i s₂) := by
      simp only [stepAt, hs, ha, Option.map_some]
    have hrest := ih (s := Function.update s i s₂) (Function.update_self ..)
    rw [Function.update_idem] at hrest
    exact .cons hP hstep hrest

/-- The components of a list run, one after the other. -/
theorem exists_of_components (l : List ι)
    (h : ∀ i ∈ l, ∃ as, Trace (step i) (fun _ a => P a) (s i) as (s' i)) :
    ∃ as, Trace (stepAt step) (fun _ a => P a.2) s as fun i => if i ∈ l then s' i else s i := by
  induction l with
  | nil => exact ⟨[], by simpa using .nil s⟩
  | cons i l ih =>
    obtain ⟨before, ih⟩ := ih fun j hj => h j (List.mem_cons_of_mem _ hj)
    by_cases hi : i ∈ l
    · refine ⟨before, ?_⟩
      convert ih using 2 with j
      by_cases hj : j = i <;> simp [hj, hi]
    · obtain ⟨as, hi'⟩ := h i List.mem_cons_self
      refine ⟨before ++ as.map (Prod.mk i), ih.append ?_⟩
      have hmoved : (fun j => if j ∈ i :: l then s' j else s j) =
          Function.update (fun j => if j ∈ l then s' j else s j) i (s' i) := by
        funext j
        by_cases hj : j = i
        · subst hj
          rw [Function.update_self, if_pos List.mem_cons_self]
        · rw [Function.update_of_ne hj]
          simp [hj]
      rw [hmoved]
      exact of_component (P := P) (by simpa [hi] using hi')

end Trace

end Lib
