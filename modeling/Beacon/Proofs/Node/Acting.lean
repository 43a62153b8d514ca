import Beacon.Node.Acting

/-
  Actions peeled apart. An action followed by another is done if both are, and refused
  if one of them is; what the first changed stays changed either way.

  What an action does to a state of some kind is `Ensures`: it says what holds after it was
  done, and what holds after it was refused.
-/

namespace Beacon.Acting

variable {σ α β : Type}

/-! ## One after the other -/

theorem bind_of_ok {x : Acting σ α} {f : α → Acting σ β} {s s₁ : σ} {a : α}
    (h : x s = (s₁, .ok a)) : (x >>= f) s = f a s₁ := by
  change andThen x f s = _
  rw [andThen, h]

theorem bind_of_error {x : Acting σ α} {f : α → Acting σ β} {s s₁ : σ} {e : NodeError}
    (h : x s = (s₁, .error e)) : (x >>= f) s = (s₁, .error e) := by
  change andThen x f s = _
  rw [andThen, h]

theorem bind_eq_ok {x : Acting σ α} {f : α → Acting σ β} {s s' : σ} {b : β}
    (h : (x >>= f) s = (s', .ok b)) : ∃ s₁ a, x s = (s₁, .ok a) ∧ f a s₁ = (s', .ok b) := by
  rcases hx : x s with ⟨s₁, a | a⟩
  · rw [bind_of_error hx] at h
    cases h
  · exact ⟨s₁, a, rfl, (bind_of_ok hx).symm.trans h⟩

theorem bind_eq_error {x : Acting σ α} {f : α → Acting σ β} {s s' : σ} {e : NodeError}
    (h : (x >>= f) s = (s', .error e)) :
    x s = (s', .error e) ∨ ∃ s₁ a, x s = (s₁, .ok a) ∧ f a s₁ = (s', .error e) := by
  rcases hx : x s with ⟨s₁, a | a⟩
  · rw [bind_of_error hx] at h
    cases h
    exact .inl rfl
  · exact .inr ⟨s₁, a, rfl, (bind_of_ok hx).symm.trans h⟩

theorem fst_bind_pure (x : Acting σ α) (b : β) (s : σ) :
    ((x >>= fun _ => pure b) s).1 = (x s).1 := by
  change (andThen x _ s).1 = _
  unfold andThen
  rcases x s with ⟨s₁, e | a⟩ <;> rfl

instance : LawfulMonad (Acting σ) :=
  LawfulMonad.mk' (Acting σ)
    (fun x => by
      funext s
      change andThen x _ s = _
      unfold andThen
      rcases x s with ⟨s₁, e | a⟩ <;> rfl)
    (fun _ _ => rfl)
    (fun x f g => by
      funext s
      change andThen (andThen x f) g s = andThen x (fun a => andThen (f a) g) s
      simp only [andThen]
      rcases x s with ⟨s₁, e | a⟩ <;> rfl)

/-! ## Single actions -/

@[simp] theorem state_apply (s : σ) : (state : Acting σ σ) s = (s, .ok s) := rfl

@[simp] theorem give_ok {ε : Type} (cause : ε → NodeError) (a : α) (s : σ) :
    give cause (.ok a) s = (s, .ok a) := rfl

@[simp] theorem give_error {ε : Type} (cause : ε → NodeError) (e : ε) (s : σ) :
    (give cause (.error e) : Acting σ α) s = (s, .error (cause e)) := rfl

theorem give_eq {ε : Type} {cause : ε → NodeError} {x : Except ε α} {s s' : σ}
    {result : Except NodeError α} (h : give cause x s = (s', result)) :
    s' = s ∧ ∀ e, result = .error e → ∃ c, e = cause c := by
  cases x with
  | ok a =>
    cases h
    exact ⟨rfl, nofun⟩
  | error c =>
    cases h
    exact ⟨rfl, fun e he => ⟨c, (Except.error.inj he).symm⟩⟩

/-! ## What actions ensure -/

section Ensures

variable {P : σ → Prop} {Q : α → σ → Prop} {R : β → σ → Prop} {E : σ → Prop}

/-- From a state with `P` the action comes to an answer and a state with `Q`, or is refused and
comes to a state with `E`. -/
def Ensures (P : σ → Prop) (x : Acting σ α) (Q : α → σ → Prop) (E : σ → Prop) : Prop :=
  ∀ s, P s → (∀ s' a, x s = (s', .ok a) → Q a s') ∧ ∀ s' e, x s = (s', .error e) → E s'

theorem Ensures.bind {x : Acting σ α} {f : α → Acting σ β} (hx : Ensures P x Q E)
    (hf : ∀ a, Ensures (Q a) (f a) R E) : Ensures P (x >>= f) R E := by
  intro s hs
  obtain ⟨hdone, hrefused⟩ := hx s hs
  constructor
  · intro s' b h
    obtain ⟨s₁, a, hfirst, hsecond⟩ := bind_eq_ok h
    exact (hf a s₁ (hdone s₁ a hfirst)).1 s' b hsecond
  · intro s' e h
    rcases bind_eq_error h with hfirst | ⟨s₁, a, hfirst, hsecond⟩
    · exact hrefused s' e hfirst
    · exact (hf a s₁ (hdone s₁ a hfirst)).2 s' e hsecond

theorem ensures_answer {a : α} (h : ∀ s, P s → Q a s) : Ensures P (pure a) Q E := by
  intro s hs
  refine ⟨fun s' b hdone => ?_, fun s' e hrefused => ?_⟩
  · cases hdone
    exact h s hs
  · cases hrefused

theorem ensures_state : Ensures P state (fun _ => P) E := by
  intro s hs
  refine ⟨fun s' a hdone => ?_, fun s' e hrefused => ?_⟩
  · cases hdone
    exact hs
  · cases hrefused

theorem ensures_change {f : σ → σ} {Q : Unit → σ → Prop} (h : ∀ s, P s → Q () (f s)) :
    Ensures P (change f) Q E := by
  intro s hs
  refine ⟨fun s' a hdone => ?_, fun s' e hrefused => ?_⟩
  · cases hdone
    exact h s hs
  · cases hrefused

theorem ensures_iff {I : σ → Prop} {x : Acting σ α} :
    Ensures P x (fun _ => I) I ↔ ∀ s, P s → I (x s).1 := by
  constructor
  · intro h s hs
    rcases hx : x s with ⟨s', e | a⟩
    · exact (h s hs).2 s' e hx
    · exact (h s hs).1 s' a hx
  · intro h s hs
    have hkept := h s hs
    refine ⟨fun s' a hx => ?_, fun s' e hx => ?_⟩
    · rw [hx] at hkept
      exact hkept
    · rw [hx] at hkept
      exact hkept

/-- The action keeps an invariant, done or refused. -/
abbrev Preserves (I : σ → Prop) (x : Acting σ α) : Prop := Ensures I x (fun _ => I) I

variable {I : σ → Prop}

theorem preserves_answer {a : α} : Preserves I (pure a) := ensures_answer fun _ hs => hs

theorem preserves_refuse {e : NodeError} : Preserves I (refuse e : Acting σ α) :=
  ensures_iff.mpr fun _ hs => hs

theorem preserves_give {ε : Type} (cause : ε → NodeError) (x : Except ε α) :
    Preserves I (give cause x) := by
  cases x with
  | ok a => exact preserves_answer
  | error e => exact preserves_refuse

theorem Preserves.mapM {γ : Type} {g : γ → Acting σ α} (h : ∀ c, Preserves I (g c))
    (cs : List γ) : Preserves I (cs.mapM g) := by
  induction cs with
  | nil => exact preserves_answer
  | cons c cs ih =>
    rw [List.mapM_cons]
    exact (h c).bind fun _ => Ensures.bind ih fun _ => preserves_answer

end Ensures

end Beacon.Acting
