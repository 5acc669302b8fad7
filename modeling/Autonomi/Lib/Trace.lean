/-
  Runs of a transition system with labelled steps, and lists of processes of
  which one changes at a time.
-/
import Mathlib

namespace Lib

universe u v
variable {σ : Type u} {α : Type v} {step : σ → α → Option σ} {P Q : σ → α → Prop}
  {s s' s'' : σ} {as as' : List α}

/-- `Trace step P s as s'`: the actions `as` lead from `s` to `s'`, and each is taken in a state
    where `P` allows it. -/
inductive Trace (step : σ → α → Option σ) (P : σ → α → Prop) : σ → List α → σ → Prop where
  | nil (s : σ) : Trace step P s [] s
  | cons {s : σ} {a : α} {s' : σ} {as : List α} {s'' : σ} : P s a → step s a = some s' →
      Trace step P s' as s'' → Trace step P s (a :: as) s''

/-- Any action is allowed. -/
abbrev Runs (step : σ → α → Option σ) : σ → List α → σ → Prop := Trace step fun _ _ => True

namespace Trace

theorem append (h : Trace step P s as s') (h' : Trace step P s' as' s'') :
    Trace step P s (as ++ as') s'' := by
  induction h with
  | nil => exact h'
  | cons hP hstep _ ih => exact .cons hP hstep (ih h')

theorem of_append (h : Trace step P s (as ++ as') s'') :
    ∃ s', Trace step P s as s' ∧ Trace step P s' as' s'' := by
  induction as generalizing s with
  | nil => exact ⟨s, .nil s, h⟩
  | cons a as ih =>
    cases h with
    | cons hP ha h =>
      obtain ⟨s', h₁, h₂⟩ := ih h
      exact ⟨s', .cons hP ha h₁, h₂⟩

theorem mono (hPQ : ∀ s a, P s a → Q s a) (h : Trace step P s as s') : Trace step Q s as s' := by
  induction h with
  | nil => exact .nil _
  | cons hP hstep _ ih => exact .cons (hPQ _ _ hP) hstep ih

/-- What the allowed steps preserve, the run preserves. -/
theorem invariant {I : σ → Prop} (h : Trace step P s as s')
    (hstep : ∀ s a s', P s a → I s → step s a = some s' → I s') (hs : I s) : I s' := by
  induction h with
  | nil => exact hs
  | cons hP ha _ ih => exact ih (hstep _ _ _ hP hs ha)

/-- A run of actions that are all of a kind. -/
theorem of_runs {R : α → Prop} (h : Runs step s as s') (hR : ∀ a ∈ as, R a) :
    Trace step (fun _ a => R a) s as s' := by
  induction h with
  | nil => exact .nil _
  | cons _ ha _ ih =>
    exact .cons (hR _ List.mem_cons_self) ha (ih fun a ha => hR a (List.mem_cons_of_mem _ ha))

/-- What is allowed may use an invariant of the run. -/
theorem mono_of_invariant {I : σ → Prop}
    (hstep : ∀ s a s', P s a → I s → step s a = some s' → I s') (hPQ : ∀ s a, I s → P s a → Q s a)
    (h : Trace step P s as s') (hs : I s) : Trace step Q s as s' := by
  induction h with
  | nil => exact .nil _
  | cons hP ha _ ih => exact .cons (hPQ _ _ hs hP) ha (ih (hstep _ _ _ hP hs ha))

/-- Two conditions that agree under an invariant which the second keeps allow the same runs. -/
theorem iff_of_invariant {I : σ → Prop} (hstep : ∀ s a s', I s → Q s a → step s a = some s' → I s')
    (hPQ : ∀ s a s', I s → step s a = some s' → (P s a ↔ Q s a)) (hs : I s) :
    Trace step P s as s' ↔ Trace step Q s as s' := by
  constructor
  · intro h
    induction h with
    | nil => exact .nil _
    | cons hP ha _ ih =>
      have hQ := (hPQ _ _ _ hs ha).1 hP
      exact .cons hQ ha (ih (hstep _ _ _ hs hQ ha))
  · intro h
    induction h with
    | nil => exact .nil _
    | cons hQ ha _ ih =>
      exact .cons ((hPQ _ _ _ hs ha).2 hQ) ha (ih (hstep _ _ _ hs hQ ha))

/-- What the allowed steps relate, the run relates. -/
theorem relation {R : σ → σ → Prop} (hrefl : ∀ s, R s s)
    (htrans : ∀ {s s' s''}, R s s' → R s' s'' → R s s'')
    (hstep : ∀ s a s', P s a → step s a = some s' → R s s') (h : Trace step P s as s') :
    R s s' := by
  induction h with
  | nil => exact hrefl _
  | cons hP ha _ ih => exact htrans (hstep _ _ _ hP ha) ih

end Trace

/-- A run is what the actions compute. -/
theorem runs_iff : Runs step s as s' ↔ as.foldlM step s = some s' := by
  constructor
  · intro h
    induction h with
    | nil => rfl
    | cons _ ha _ ih => rw [List.foldlM_cons, ha]; exact ih
  · intro h
    induction as generalizing s with
    | nil => rw [← Option.some.inj h]; exact .nil _
    | cons a as ih =>
      rw [List.foldlM_cons] at h
      obtain ⟨s₁, ha, h⟩ := Option.bind_eq_some_iff.1 h
      exact .cons trivial ha (ih h)

/-- Only the steps that `P` allows. -/
def guarded (step : σ → α → Option σ) (P : σ → α → Prop) [∀ s a, Decidable (P s a)] (s : σ)
    (a : α) : Option σ :=
  if P s a then step s a else none

theorem trace_iff [∀ s a, Decidable (P s a)] :
    Trace step P s as s' ↔ as.foldlM (guarded step P) s = some s' := by
  rw [← runs_iff]
  constructor
  · intro h
    induction h with
    | nil => exact .nil _
    | cons hP ha _ ih => exact .cons trivial (by rw [guarded, if_pos hP, ha]) ih
  · intro h
    induction h with
    | nil => exact .nil _
    | cons _ ha _ ih =>
      rw [guarded] at ha
      split_ifs at ha with hP
      exact .cons hP ha ih

/-- A measure that stays exactly at the allowed steps tells whether all were allowed. -/
theorem trace_iff_eq {f : σ → ℕ} (hstay : ∀ s a s', step s a = some s' → P s a → f s' = f s)
    (hgrow : ∀ s a s', step s a = some s' → ¬ P s a → f s < f s') (h : Runs step s as s') :
    Trace step P s as s' ↔ f s' = f s := by
  have hmono : ∀ {s as s'}, Runs step s as s' → f s ≤ f s' := by
    intro s as s' h
    induction h with
    | nil => exact le_rfl
    | @cons s a s₁ _ _ _ ha _ ih =>
      by_cases hP : P s a
      · rwa [hstay _ _ _ ha hP] at ih
      · exact (hgrow _ _ _ ha hP).le.trans ih
  constructor
  · exact Trace.relation (R := fun s s' => f s' = f s) (fun _ => rfl) (fun h₁ h₂ => h₂.trans h₁)
      fun s a s' hP ha => hstay s a s' ha hP
  · intro heq
    induction h with
    | nil => exact .nil _
    | @cons s a s₁ _ _ _ ha hrest ih =>
      have hle := hmono hrest
      by_cases hP : P s a
      · exact .cons hP ha (ih (by rw [heq, hstay _ _ _ ha hP]))
      · have := hgrow _ _ _ ha hP
        omega

/-! ## Processes -/

section Procs

variable {β : Type*} {γ : Type*} {l : List β} {k : ℕ} {b b' : β} {p : β → Prop}

theorem forall_mem_set (h : ∀ x ∈ l, p x) (hb : p b') : ∀ x ∈ l.set k b', p x := by
  intro x hx
  rcases List.mem_or_eq_of_mem_set hx with hx | rfl
  exacts [h x hx, hb]

theorem forall_mem_append (h : ∀ x ∈ l, p x) (hb : p b') : ∀ x ∈ l ++ [b'], p x := by
  intro x hx
  rcases List.mem_append.1 hx with hx | hx
  · exact h x hx
  · rw [List.mem_singleton.1 hx]; exact hb

theorem mem_set_self (h : l[k]? = some b) : b' ∈ l.set k b' :=
  List.mem_set (List.getElem?_eq_some_iff.1 h).1 b'

theorem exists_mem_set (h : ∃ x ∈ l, p x) (hk : l[k]? = some b) (hb : p b → p b') :
    ∃ x ∈ l.set k b', p x := by
  obtain ⟨x, hx, hp⟩ := h
  obtain ⟨i, hi⟩ := List.mem_iff_getElem?.1 hx
  by_cases hik : i = k
  · subst hik
    rw [hk] at hi
    exact ⟨b', mem_set_self hk, hb (Option.some.inj hi ▸ hp)⟩
  · exact ⟨x, List.mem_iff_getElem?.2 ⟨i, by rw [List.getElem?_set_ne (Ne.symm hik)]; exact hi⟩, hp⟩

/-- A change that keeps `f` keeps it of the whole list. -/
theorem map_set_eq {f : β → γ} (hk : l[k]? = some b) (hf : f b' = f b) :
    (l.set k b').map f = l.map f := by
  apply List.ext_getElem?
  intro i
  rw [List.getElem?_map, List.getElem?_map]
  by_cases hik : k = i
  · subst hik
    rw [List.getElem?_set_self (List.getElem?_eq_some_iff.1 hk).1, hk]
    simp [hf]
  · rw [List.getElem?_set_ne hik]

/-- One change moves a count by what it takes away and adds. -/
theorem countP_set_add {f : β → Bool} (hk : l[k]? = some b) :
    (l.set k b').countP f + (if f b then 1 else 0) = l.countP f + if f b' then 1 else 0 := by
  obtain ⟨hlt, rfl⟩ := List.getElem?_eq_some_iff.1 hk
  have hpos : (if f l[k] then 1 else 0) ≤ l.countP f := by
    split_ifs with h
    · exact List.countP_pos_iff.2 ⟨_, List.getElem_mem hlt, h⟩
    · exact Nat.zero_le _
  rw [List.countP_set hlt]
  omega

theorem countP_set_eq {f : β → Bool} (hk : l[k]? = some b) (hf : f b' = f b) :
    (l.set k b').countP f = l.countP f := by
  have hadd : (l.set k b').countP f + (if f b then 1 else 0) =
      l.countP f + if f b' then 1 else 0 := countP_set_add hk
  rw [hf] at hadd
  exact Nat.add_right_cancel hadd

/-- Any two of the processes are related. -/
def Apart (R : β → β → Prop) (l : List β) : Prop :=
  ∀ (i j : ℕ) (x y : β), i ≠ j → l[i]? = some x → l[j]? = some y → R x y

theorem Apart.set {R : β → β → Prop} (h : Apart R l) (hsymm : ∀ x y, R x y → R y x)
    (hb : ∀ (j : ℕ) (y : β), j ≠ k → l[j]? = some y → R b' y) : Apart R (l.set k b') := by
  have hself : ∀ x, (l.set k b')[k]? = some x → x = b' := fun x hx => by
    rw [List.getElem?_set_self'] at hx
    obtain ⟨-, -, rfl⟩ := Option.map_eq_some_iff.1 hx
    rfl
  intro i j x y hij hx hy
  by_cases hi : i = k
  · subst hi
    rw [List.getElem?_set_ne hij] at hy
    rw [hself x hx]
    exact hb j y hij.symm hy
  · rw [List.getElem?_set_ne (Ne.symm hi)] at hx
    by_cases hj : j = k
    · subst hj
      rw [hself y hy]
      exact hsymm _ _ (hb i x hi hx)
    · rw [List.getElem?_set_ne (Ne.symm hj)] at hy
      exact h i j x y hij hx hy

theorem Apart.concat {R : β → β → Prop} (h : Apart R l) (hsymm : ∀ x y, R x y → R y x)
    (hb : ∀ y ∈ l, R b' y) : Apart R (l ++ [b']) := by
  have hcases : ∀ (i : ℕ) (x : β), (l ++ [b'])[i]? = some x →
      l[i]? = some x ∨ i = l.length ∧ x = b' := by
    intro i x hx
    rcases Nat.lt_or_ge i l.length with hlt | hge
    · exact Or.inl (by rwa [List.getElem?_append_left hlt] at hx)
    · rw [List.getElem?_append_right hge, List.getElem?_singleton] at hx
      split_ifs at hx with hi
      exact Or.inr ⟨by omega, (Option.some.inj hx).symm⟩
  intro i j x y hij hx hy
  rcases hcases i x hx with hx' | ⟨hi, rfl⟩
  · rcases hcases j y hy with hy' | ⟨-, rfl⟩
    · exact h i j x y hij hx' hy'
    · exact hsymm _ _ (hb x (List.mem_of_getElem? hx'))
  · rcases hcases j y hy with hy' | ⟨hj, -⟩
    · exact hb y (List.mem_of_getElem? hy')
    · exact absurd (hi.trans hj.symm) hij

/-- Two processes of the list are related, or one and the same. -/
theorem Apart.eq_or {R : β → β → Prop} (h : Apart R l) {x y : β} (hx : x ∈ l) (hy : y ∈ l) :
    x = y ∨ R x y := by
  obtain ⟨i, hi⟩ := List.getElem?_of_mem hx
  obtain ⟨j, hj⟩ := List.getElem?_of_mem hy
  by_cases hij : i = j
  · subst hij
    exact Or.inl (Option.some.inj (hi.symm.trans hj))
  · exact Or.inr (h i j x y hij hi hj)

/-- As many as there are numbers for them. -/
theorem countP_le_card {f : β → Option ℕ} {q : β → Bool} {S : Finset ℕ}
    (hapart : Apart (fun x y => ∀ n, f x = some n → f y ≠ some n) l)
    (hS : ∀ x ∈ l, q x → ∃ n ∈ S, f x = some n) : l.countP q ≤ S.card := by
  induction l generalizing S with
  | nil => exact Nat.zero_le _
  | cons x l ih =>
    have htail : Apart (fun x y => ∀ n, f x = some n → f y ≠ some n) l := fun i j a b hij ha hb =>
      hapart (i + 1) (j + 1) a b (by omega) ha hb
    rw [List.countP_cons]
    by_cases hx : q x = true
    · obtain ⟨n, hn, hfx⟩ := hS x List.mem_cons_self hx
      rw [if_pos hx, ← Finset.card_erase_add_one hn]
      refine Nat.add_le_add_right (ih htail fun y hy hqy => ?_) 1
      obtain ⟨m, hm, hfy⟩ := hS y (List.mem_cons_of_mem _ hy) hqy
      obtain ⟨j, hj⟩ := List.getElem?_of_mem hy
      refine ⟨m, Finset.mem_erase.2 ⟨?_, hm⟩, hfy⟩
      rintro rfl
      exact hapart 0 (j + 1) x y (by omega) rfl hj _ hfx hfy
    · rw [if_neg hx]
      exact ih htail fun y hy => hS y (List.mem_cons_of_mem _ hy)

theorem countP_le_add {f g h : β → Bool} (hfg : ∀ x ∈ l, f x → g x ∨ h x) :
    l.countP f ≤ l.countP g + l.countP h := by
  induction l with
  | nil => exact Nat.zero_le _
  | cons x l ih =>
    have htail := ih fun y hy => hfg y (List.mem_cons_of_mem _ hy)
    have hhead : (if f x then 1 else 0) ≤ (if g x then 1 else 0) + if h x then 1 else 0 := by
      by_cases hf : f x = true
      · rcases hfg x List.mem_cons_self hf with hg | hh
        · simp [hf, hg]
        · simp [hf, hh]
      · simp [hf]
    rw [List.countP_cons, List.countP_cons, List.countP_cons]
    omega

end Procs

end Lib
