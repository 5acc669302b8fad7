/-
  The past-time operator "since" over a finite history, the latest entry last.
-/
import Mathlib

namespace Lib

variable {α : Type*} {P P' Q Q' : α → Prop} {l : List α} {a : α}

/-- Some entry satisfies `Q`, and each entry after it satisfies `P`. -/
def Since (P Q : α → Prop) (l : List α) : Prop :=
  ∃ l₁ a l₂, l = l₁ ++ a :: l₂ ∧ Q a ∧ ∀ b ∈ l₂, P b

@[simp] theorem not_since_nil : ¬ Since P Q [] := by
  rintro ⟨l₁, a, l₂, h, -⟩
  simp at h

/-- What one more entry changes. -/
theorem since_append_singleton :
    Since P Q (l ++ [a]) ↔ Q a ∨ P a ∧ Since P Q l := by
  constructor
  · rintro ⟨l₁, b, l₂, h, hb, hl₂⟩
    rcases l₂.eq_nil_or_concat' with rfl | ⟨l₂, c, rfl⟩
    · obtain rfl := List.singleton_inj.1 (List.append_inj' h rfl).2
      exact Or.inl hb
    · rw [← List.cons_append, ← List.append_assoc] at h
      obtain ⟨rfl, hc⟩ := List.append_inj' h rfl
      obtain rfl := List.singleton_inj.1 hc
      exact Or.inr ⟨hl₂ _ (by simp), l₁, b, l₂, rfl, hb, fun x hx => hl₂ x (by simp [hx])⟩
  · rintro (h | ⟨ha, l₁, b, l₂, rfl, hb, hl₂⟩)
    · exact ⟨l, a, [], rfl, h, by simp⟩
    · refine ⟨l₁, b, l₂ ++ [a], by simp, hb, fun x hx => ?_⟩
      rcases List.mem_append.1 hx with hx | hx
      · exact hl₂ x hx
      · rw [List.mem_singleton.1 hx]; exact ha

end Lib
