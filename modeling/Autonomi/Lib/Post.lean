/-
  What an action comes to: rules of pre- and postconditions, with what holds where
  it fails.
-/
import Autonomi.Lib.Act

namespace Lib.Act

variable {σ ε α β ι : Type} {x : Act σ ε α} {f : α → Act σ ε β} {s : σ} {Q : α → σ → Prop}
  {R : ε → σ → Prop}

/-- From `s`, `x` returns, with `Q` for the value and the state, or it fails, with `R` for the error
    and the state. -/
def Post (x : Act σ ε α) (s : σ) (Q : α → σ → Prop) (R : ε → σ → Prop) : Prop :=
  (∃ a s', x s = some (.ok a, s') ∧ Q a s') ∨ ∃ e s', x s = some (.error e, s') ∧ R e s'

theorem Post.mono {Q' : α → σ → Prop} (h : Post x s Q R) (hQ : ∀ a s', Q a s' → Q' a s') :
    Post x s Q' R := by
  rcases h with ⟨a, s', hx, ha⟩ | he
  · exact .inl ⟨a, s', hx, hQ a s' ha⟩
  · exact .inr he

theorem post_pure {a : α} (h : Q a s) : Post (pure a) s Q R := .inl ⟨a, s, rfl, h⟩

theorem post_modify {g : σ → σ} {Q : PUnit → σ → Prop} (h : Q ⟨⟩ (g s)) : Post (modify g) s Q R :=
  .inl ⟨⟨⟩, g s, rfl, h⟩

theorem post_get {g : σ → Act σ ε α} (h : Post (g s) s Q R) : Post (get >>= g) s Q R := h

theorem post_set {s' : σ} {Q : PUnit → σ → Prop} (h : Q ⟨⟩ s') : Post (set s') s Q R :=
  .inl ⟨⟨⟩, s', rfl, h⟩

theorem post_ofExcept {y : Except ε α} (hok : ∀ a, y = .ok a → Q a s)
    (herror : ∀ e, y = .error e → R e s) : Post (ofExcept y) s Q R := by
  cases y with
  | ok a => exact .inl ⟨a, s, rfl, hok a rfl⟩
  | error e => exact .inr ⟨e, s, rfl, herror e rfl⟩

theorem post_bind {Q : β → σ → Prop} (h : Post x s (fun a s' => Post (f a) s' Q R) R) :
    Post (x >>= f) s Q R := by
  rcases h with ⟨a, s', hx, hf⟩ | ⟨e, s', hx, he⟩
  · rw [Post, bind_of_ok hx]
    exact hf
  · exact .inr ⟨e, s', bind_of_error hx, he⟩

/-- The loop keeps an invariant of what it has gone through. -/
theorem post_foldlM {step : β → ι → Act σ ε β} {whole : List ι} {I : List ι → β → σ → Prop}
    (hstep : ∀ gone i rest b s, gone ++ i :: rest = whole → I gone b s →
      Post (step b i) s (fun b' s' => I (gone ++ [i]) b' s') R) :
    ∀ (l gone : List ι) (b : β) (s : σ), gone ++ l = whole → I gone b s →
      Post (l.foldlM step b) s (fun b' s' => I whole b' s') R := by
  intro l
  induction l with
  | nil =>
    intro gone b s hwhole hI
    rw [List.append_nil] at hwhole
    exact post_pure (hwhole ▸ hI)
  | cons i l ih =>
    intro gone b s hwhole hI
    rw [List.foldlM_cons]
    refine post_bind ((hstep gone i l b s hwhole hI).mono fun b' s' hI' => ?_)
    exact ih (gone ++ [i]) b' s' (by rw [List.append_assoc]; exact hwhole) hI'

/-! ## What holds if it returns -/

/-- From `s`, if `x` comes to an end, `Q` holds for the value and the state, or `R` for the error and
    the state. -/
def Holds (x : Act σ ε α) (s : σ) (Q : α → σ → Prop) (R : ε → σ → Prop) : Prop :=
  (∀ a s', x s = some (.ok a, s') → Q a s') ∧ ∀ e s', x s = some (.error e, s') → R e s'

/-- `x` keeps `I`, whether it fails or not. -/
def Keeps (I : σ → Prop) (x : Act σ ε α) : Prop := ∀ s, I s → Holds x s (fun _ => I) fun _ => I

theorem Holds.mono {Q' : α → σ → Prop} {R' : ε → σ → Prop} (h : Holds x s Q R)
    (hQ : ∀ a s', Q a s' → Q' a s') (hR : ∀ e s', R e s' → R' e s') : Holds x s Q' R' :=
  ⟨fun a s' hx => hQ a s' (h.1 a s' hx), fun e s' hx => hR e s' (h.2 e s' hx)⟩

theorem holds_pure {a : α} (h : Q a s) : Holds (pure a) s Q R := by
  refine ⟨fun a s' hx => ?_, nofun⟩
  obtain ⟨he, rfl⟩ := Prod.mk.inj (Option.some.inj hx)
  obtain rfl := Except.ok.inj he
  exact h

theorem holds_throw {e : ε} (h : R e s) : Holds (throw e) s Q R := by
  refine ⟨nofun, fun e s' hx => ?_⟩
  obtain ⟨he, rfl⟩ := Prod.mk.inj (Option.some.inj hx)
  obtain rfl := Except.error.inj he
  exact h

theorem holds_get {g : σ → Act σ ε α} (h : Holds (g s) s Q R) : Holds (get >>= g) s Q R := h

theorem holds_set {s' : σ} {Q : PUnit → σ → Prop} (h : Q ⟨⟩ s') : Holds (set s') s Q R :=
  holds_pure (s := s') h

theorem holds_set_bind {s' : σ} {g : PUnit → Act σ ε α} (h : Holds (g ⟨⟩) s' Q R) :
    Holds (set s' >>= g) s Q R := h

theorem holds_modify {g : σ → σ} {Q : PUnit → σ → Prop} (h : Q ⟨⟩ (g s)) : Holds (modify g) s Q R :=
  holds_pure (s := g s) h

theorem holds_modify_bind {g : σ → σ} {f : PUnit → Act σ ε α} (h : Holds (f ⟨⟩) (g s) Q R) :
    Holds (modify g >>= f) s Q R := h

theorem holds_ofExcept {y : Except ε α} (hok : ∀ a, y = .ok a → Q a s)
    (herror : ∀ e, y = .error e → R e s) : Holds (ofExcept y) s Q R := by
  cases y with
  | ok a => exact holds_pure (hok a rfl)
  | error e => exact holds_throw (herror e rfl)

theorem holds_ofRun {y : ExceptT ε Option α} (hok : ∀ a, Q a s) (herror : ∀ e, R e s) :
    Holds (ofRun y) s Q R := by
  constructor
  all_goals
    intro r s' hx
    obtain ⟨r', -, he⟩ := Option.map_eq_some_iff.1 hx
    obtain ⟨rfl, rfl⟩ := Prod.mk.inj he
  · exact hok r
  · exact herror r

theorem holds_bind {Q' : α → σ → Prop} {Q : β → σ → Prop} (h : Holds x s Q' R)
    (hf : ∀ a s', Q' a s' → Holds (f a) s' Q R) : Holds (x >>= f) s Q R := by
  cases hrun : x s with
  | none =>
    have hbind : (x >>= f) s = none := bind_of_none hrun
    rw [Holds, hbind]
    exact ⟨nofun, nofun⟩
  | some p =>
    obtain ⟨e | a, s₁⟩ := p
    · have hbind : (x >>= f) s = some (.error e, s₁) := bind_of_error hrun
      rw [Holds, hbind]
      refine ⟨nofun, fun e' s' hx => ?_⟩
      obtain ⟨he, rfl⟩ := Prod.mk.inj (Option.some.inj hx)
      obtain rfl := Except.error.inj he
      exact h.2 _ _ hrun
    · have hbind : (x >>= f) s = f a s₁ := bind_of_ok hrun
      rw [Holds, hbind]
      exact hf a s₁ (h.1 a s₁ hrun)

theorem holds_foldlM {step : β → ι → Act σ ε β} {whole : List ι} {I : List ι → β → σ → Prop}
    (hstep : ∀ gone i rest b s, gone ++ i :: rest = whole → I gone b s →
      Holds (step b i) s (I (gone ++ [i])) R) :
    ∀ (l gone : List ι) (b : β) (s : σ), gone ++ l = whole → I gone b s →
      Holds (l.foldlM step b) s (I whole) R := by
  intro l
  induction l with
  | nil =>
    intro gone b s hwhole hI
    rw [List.append_nil] at hwhole
    exact holds_pure (hwhole ▸ hI)
  | cons i l ih =>
    intro gone b s hwhole hI
    rw [List.foldlM_cons]
    refine holds_bind (hstep gone i l b s hwhole hI) fun b' s' hI' => ?_
    exact ih (gone ++ [i]) b' s' (by rw [List.append_assoc]; exact hwhole) hI'

end Lib.Act
