/-
  Actions on a state that may fail, or not return, and whose changes to the
  state survive a failure; and iterators driven by such an action.
-/
import Mathlib

namespace Lib

variable {σ ε α β ι : Type}

/-- A method with `&mut self`: `none` has not returned. -/
abbrev Act (σ ε α : Type) := ExceptT ε (StateT σ Option) α

namespace Act

variable {x : Act σ ε α} {f : α → Act σ ε β} {s s' : σ}

theorem bind_of_ok {a : α} (h : x s = some (.ok a, s')) : (x >>= f) s = f a s' := by
  change (x s).bind _ = _
  rw [h]; rfl

theorem bind_of_error {e : ε} (h : x s = some (.error e, s')) :
    (x >>= f) s = some (.error e, s') := by
  change (x s).bind _ = _
  rw [h]; rfl

theorem bind_of_none (h : x s = none) : (x >>= f) s = none := by
  change (x s).bind _ = _
  rw [h]; rfl

/-- Only what `x` comes to counts. -/
theorem bind_congr {y : Act σ ε α} (h : x s = y s') : (x >>= f) s = (y >>= f) s' := by
  change (x s).bind _ = (y s').bind _
  rw [h]

@[simp] theorem pure_run (a : α) : (pure a : Act σ ε α) s = some (.ok a, s) := rfl

@[simp] theorem get_run : (get : Act σ ε σ) s = some (.ok s, s) := rfl

@[simp] theorem set_run : (set s' : Act σ ε PUnit) s = some (.ok ⟨⟩, s') := rfl

@[simp] theorem modify_run (g : σ → σ) : (modify g : Act σ ε PUnit) s = some (.ok ⟨⟩, g s) := rfl

@[simp] theorem get_bind {g : σ → Act σ ε β} : ((get : Act σ ε σ) >>= g) s = g s s := rfl

@[simp] theorem set_bind {g : PUnit → Act σ ε β} :
    ((set s' : Act σ ε PUnit) >>= g) s = g ⟨⟩ s' := rfl

@[simp] theorem modify_bind {h : σ → σ} {g : PUnit → Act σ ε β} :
    ((modify h : Act σ ε PUnit) >>= g) s = g ⟨⟩ (h s) := rfl

/-- A computation without state. -/
def ofExcept (x : Except ε α) : Act σ ε α := ExceptT.mk (pure x)

@[simp] theorem ofExcept_run (x : Except ε α) : (ofExcept x : Act σ ε α) s = some (x, s) := rfl

/-- A computation without state that may not return. -/
def ofRun (x : ExceptT ε Option α) : Act σ ε α := ExceptT.mk fun s => Option.map (fun r => (r, s)) x

theorem ofRun_run {x : ExceptT ε Option α} {a : α} (h : x = some (.ok a)) :
    (ofRun x : Act σ ε α) s = some (.ok a, s) := by
  rw [h]; rfl

end Act

/-! ## Iterators -/

section Iterator

/-- `next` of an iterator: the item, if there is one, and the state after. -/
abbrev Next (σ ι : Type) := σ → Option (Option ι × σ)

/-- `items` are the first ones. -/
inductive Pulls (next : Next σ ι) : σ → List ι → σ → Prop
  | nil {s : σ} : Pulls next s [] s
  | cons {s s' s'' : σ} {i : ι} {items : List ι} : next s = some (some i, s') →
      Pulls next s' items s'' → Pulls next s (i :: items) s''

variable {next : Next σ ι} {s s' s'' : σ} {items items' : List ι}

/-- `items` are all there are, up to the first time that `next` has none. -/
def Drains (next : Next σ ι) (s : σ) (items : List ι) (s' : σ) : Prop :=
  ∃ s₁, Pulls next s items s₁ ∧ next s₁ = some (none, s')

theorem Pulls.append (h : Pulls next s items s') (h' : Pulls next s' items' s'') :
    Pulls next s (items ++ items') s'' := by
  induction h with
  | nil => exact h'
  | cons hn _ ih => exact .cons hn (ih h')

theorem Pulls.drains (h : Pulls next s items s') (h' : Drains next s' items' s'') :
    Drains next s (items ++ items') s'' := by
  obtain ⟨s₁, hp, hn⟩ := h'
  exact ⟨s₁, h.append hp, hn⟩

/-- Two iterators that agree where the invariant `I` of the first holds have the same items. -/
theorem Pulls.congr {next' : Next σ ι} {I : σ → Prop}
    (hI : ∀ {s i s'}, I s → next s = some (some i, s') → I s')
    (hagree : ∀ {s}, I s → next s = next' s) (hs : I s) (h : Pulls next s items s') :
    Pulls next' s items s' := by
  induction h with
  | nil => exact .nil
  | cons hn _ ih => exact .cons ((hagree hs).symm.trans hn) (ih (hI hs hn))

/-- An iterator is a function of its state. -/
theorem Pulls.unique (h : Pulls next s items s') (h' : Pulls next s items' s'')
    (hl : items.length = items'.length) : items = items' ∧ s' = s'' := by
  induction h generalizing items' with
  | nil =>
    cases h' with
    | nil => exact ⟨rfl, rfl⟩
    | cons => cases hl
  | cons hn _ ih =>
    cases h' with
    | nil => cases hl
    | cons hn' h' =>
      obtain ⟨hi, rfl⟩ := Prod.mk.inj (Option.some.inj (hn.symm.trans hn'))
      obtain rfl := Option.some.inj hi
      obtain ⟨rfl, rfl⟩ := ih h' (Nat.succ.inj hl)
      exact ⟨rfl, rfl⟩

/-- Nothing comes after the end. -/
theorem Pulls.prefix_of_drains (h : Pulls next s items s') (h' : Drains next s items' s'') :
    items <+: items' := by
  obtain ⟨s₁, hp, hend⟩ := h'
  induction h generalizing items' with
  | nil => exact List.nil_prefix
  | cons hn _ ih =>
    cases hp with
    | nil => rw [hn] at hend; cases hend
    | cons hn' hp =>
      obtain ⟨hi, rfl⟩ := Prod.mk.inj (Option.some.inj (hn.symm.trans hn'))
      obtain rfl := Option.some.inj hi
      exact List.cons_prefix_cons.2 ⟨rfl, ih hp⟩

theorem Drains.unique (h : Drains next s items s') (h' : Drains next s items' s'') :
    items = items' := by
  obtain ⟨_, hp, -⟩ := id h
  obtain ⟨_, hp', -⟩ := id h'
  have hpre := hp.prefix_of_drains h'
  exact hpre.eq_of_length (le_antisymm hpre.length_le (hp'.prefix_of_drains h).length_le)

/-- The items of an iterator that ends within `fuel` steps. -/
def collect (next : Next σ ι) : ℕ → σ → Option (List ι × σ)
  | 0, _ => none
  | fuel + 1, s =>
    match next s with
    | none => none
    | some (none, s') => some ([], s')
    | some (some i, s') => (collect next fuel s').map fun r => (i :: r.1, r.2)

theorem drains_of_collect {fuel : ℕ} (h : collect next fuel s = some (items, s')) :
    Drains next s items s' := by
  induction fuel generalizing s items with
  | zero => cases h
  | succ fuel ih =>
    rw [collect] at h
    split at h
    · cases h
    · obtain ⟨rfl, rfl⟩ := Prod.mk.inj (Option.some.inj h)
      exact ⟨_, .nil, ‹_›⟩
    · obtain ⟨r, hr, he⟩ := Option.map_eq_some_iff.1 h
      obtain ⟨rfl, rfl⟩ := Prod.mk.inj he
      obtain ⟨s₁, hp, hn⟩ := ih hr
      exact ⟨s₁, .cons ‹_› hp, hn⟩

end Iterator

end Lib
