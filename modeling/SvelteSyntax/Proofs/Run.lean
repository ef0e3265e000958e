import Mathlib.Data.List.Forall2

namespace SvelteSyntax.Run

variable {σ ε α β γ ε' : Type}

def Ensures (P : σ → Prop) (x : StateT σ (Except ε) α) (Q : α → σ → Prop) : Prop :=
  ∀ s a s', P s → x s = .ok (a, s') → Q a s'

/-- The computation fails or ends in a state with `P` as well. -/
abbrev Keeps (P : σ → Prop) (x : StateT σ (Except ε) α) : Prop := Ensures P x fun _ => P

theorem bind_eq_ok {x : Except ε α} {f : α → Except ε β} {b : β} :
    (x >>= f) = .ok b ↔ ∃ a, x = .ok a ∧ f a = .ok b := by
  cases x with
  | error e => simp [bind, Except.bind]
  | ok a => simp [bind, Except.bind]

theorem bind_eq_error {x : Except ε α} {f : α → Except ε β} {e : ε} :
    (x >>= f) = .error e ↔ x = .error e ∨ ∃ a, x = .ok a ∧ f a = .error e := by
  cases x with
  | error e => simp [bind, Except.bind]
  | ok a => simp [bind, Except.bind]

theorem toOption_eq_some {x : Except ε α} {a : α} : x.toOption = some a ↔ x = .ok a := by
  cases x with
  | error e => simp [Except.toOption]
  | ok b => simp [Except.toOption]

theorem mapError_eq_ok {x : Except ε α} {f : ε → ε'} {a : α} :
    x.mapError f = .ok a ↔ x = .ok a := by
  cases x with
  | error e => simp [Except.mapError]
  | ok b => simp [Except.mapError]

theorem mapM_eq_ok {f : α → Except ε β} {xs : List α} {ys : List β} (h : xs.mapM f = .ok ys) :
    List.Forall₂ (fun a b => f a = .ok b) xs ys := by
  induction xs generalizing ys with
  | nil =>
    cases h
    exact .nil
  | cons a xs ih =>
    rw [List.mapM_cons] at h
    obtain ⟨b, hb, h⟩ := bind_eq_ok.mp h
    obtain ⟨bs, hbs, h⟩ := bind_eq_ok.mp h
    cases h
    exact .cons hb (ih hbs)

theorem run_bind_eq_ok {x : StateT σ (Except ε) α} {f : α → StateT σ (Except ε) β} {s s' : σ}
    {b : β} : (x >>= f) s = .ok (b, s') ↔ ∃ a s₁, x s = .ok (a, s₁) ∧ f a s₁ = .ok (b, s') := by
  change (x s >>= fun p => f p.1 p.2) = _ ↔ _
  rw [bind_eq_ok]
  constructor
  · rintro ⟨⟨a, s₁⟩, hx, hf⟩
    exact ⟨a, s₁, hx, hf⟩
  · rintro ⟨a, s₁, hx, hf⟩
    exact ⟨(a, s₁), hx, hf⟩

theorem run_monadLift_eq_ok {x : Except ε α} {s s' : σ} {a : α} :
    (monadLift x : StateT σ (Except ε) α) s = .ok (a, s') ↔ x = .ok a ∧ s' = s := by
  change (x >>= fun a => .ok (a, s)) = _ ↔ _
  rw [bind_eq_ok]
  constructor
  · rintro ⟨b, hx, h⟩
    cases h
    exact ⟨hx, rfl⟩
  · rintro ⟨hx, rfl⟩
    exact ⟨a, hx, rfl⟩

namespace Ensures

variable {P P' : σ → Prop} {Q Q' : α → σ → Prop} {R : β → σ → Prop}

theorem pure {a : α} (h : ∀ s, P s → Q a s) :
    Ensures P (Pure.pure a : StateT σ (Except ε) α) Q := by
  intro s a' s' hs hr
  cases hr
  exact h s hs

theorem bind {x : StateT σ (Except ε) α} {f : α → StateT σ (Except ε) β}
    (hx : Ensures P x Q) (hf : ∀ a, Ensures (Q a) (f a) R) : Ensures P (x >>= f) R := by
  intro s b s' hs hr
  obtain ⟨a, s₁, h₁, h₂⟩ := run_bind_eq_ok.mp hr
  exact hf a s₁ b s' (hx s a s₁ hs h₁) h₂

theorem map {x : StateT σ (Except ε) α} {f : α → β} (hx : Ensures P x Q)
    (hf : ∀ a s, Q a s → R (f a) s) : Ensures P (f <$> x) R :=
  bind hx fun _ => pure fun s => hf _ s

theorem throw {e : ε} : Ensures P (MonadExcept.throw e : StateT σ (Except ε) α) Q := by
  intro s a s' _ hr
  cases hr

theorem get {Q : σ → σ → Prop} (h : ∀ s, P s → Q s s) :
    Ensures P (MonadState.get : StateT σ (Except ε) σ) Q := by
  intro s a s' hs hr
  cases hr
  exact h s hs

theorem set {Q : Unit → σ → Prop} {t : σ} (h : ∀ s, P s → Q () t) :
    Ensures P (MonadState.set t : StateT σ (Except ε) Unit) Q := by
  intro s a s' hs hr
  cases hr
  exact h s hs

theorem modify {Q : Unit → σ → Prop} {f : σ → σ} (h : ∀ s, P s → Q () (f s)) :
    Ensures P (modify f : StateT σ (Except ε) Unit) Q := by
  intro s a s' hs hr
  cases hr
  exact h s hs

theorem lift_bind {x : Except ε α} {f : α → StateT σ (Except ε) β}
    (h : ∀ a, x = .ok a → Ensures P (f a) R) :
    Ensures P ((monadLift x : StateT σ (Except ε) α) >>= f) R := by
  intro s b s' hs hr
  obtain ⟨a, s₁, hlift, hf⟩ := run_bind_eq_ok.mp hr
  obtain ⟨hx, rfl⟩ := run_monadLift_eq_ok.mp hlift
  exact h a hx _ b s' hs hf

theorem foldlM {I : β → σ → Prop} {xs : List α} {f : β → α → StateT σ (Except ε) β} {b : β}
    (h : ∀ c, ∀ a ∈ xs, Ensures (I c) (f c a) I) : Ensures (I b) (xs.foldlM f b) I := by
  induction xs generalizing b with
  | nil => exact pure fun _ hs => hs
  | cons a xs ih =>
    rw [List.foldlM_cons]
    refine bind (h b a (List.mem_cons_self ..)) fun c => ih fun d e he => ?_
    exact h d e (List.mem_cons_of_mem _ he)

theorem mapM {xs : List α} {f : α → StateT σ (Except ε) β} (h : ∀ a ∈ xs, Keeps P (f a)) :
    Keeps P (xs.mapM f) := by
  induction xs with
  | nil => exact pure fun _ hs => hs
  | cons a xs ih =>
    rw [List.mapM_cons]
    refine bind (h a (List.mem_cons_self ..)) fun b => ?_
    exact map (ih fun c hc => h c (List.mem_cons_of_mem _ hc)) fun _ _ hs => hs

end Ensures

theorem optionRel_imp {R S : α → β → Prop} (h : ∀ a b, R a b → S a b) {x : Option α} {y : Option β}
    (hxy : Option.Rel R x y) : Option.Rel S x y := by
  cases hxy with
  | none => exact .none
  | some hr => exact .some (h _ _ hr)

theorem of_optionRel_some {R : α → β → Prop} {a : α} {y : Option β} (h : Option.Rel R (some a) y) :
    ∃ b, y = some b ∧ R a b := by
  cases h with
  | some hr => exact ⟨_, rfl, hr⟩

theorem optionRel_comp {R : α → β → Prop} {S : β → γ → Prop} {x : Option α} {y : Option β}
    {z : Option γ} (hxy : Option.Rel R x y) (hyz : Option.Rel S y z) :
    Option.Rel (fun a c => ∃ b, R a b ∧ S b c) x z := by
  cases hxy with
  | none =>
    cases hyz
    exact .none
  | some hr =>
    cases hyz with
    | some hs => exact .some ⟨_, hr, hs⟩

/-- From some state the computation succeeds with the value. -/
def Yields (x : StateT σ (Except ε) α) (a : α) : Prop := ∃ s s', x s = .ok (a, s')

namespace Yields

variable {x : StateT σ (Except ε) α} {a b : α}

theorem pure (h : Yields (Pure.pure a : StateT σ (Except ε) α) b) : b = a := by
  obtain ⟨s, s', h⟩ := h
  cases h
  rfl

theorem bind {f : α → StateT σ (Except ε) β} {b : β} (h : Yields (x >>= f) b) :
    ∃ a, Yields x a ∧ Yields (f a) b := by
  obtain ⟨s, s', h⟩ := h
  obtain ⟨a, s₁, hx, hf⟩ := run_bind_eq_ok.mp h
  exact ⟨a, ⟨s, s₁, hx⟩, s₁, s', hf⟩

theorem map {f : α → β} {b : β} (h : Yields (f <$> x) b) : ∃ a, Yields x a ∧ b = f a := by
  rw [map_eq_pure_bind] at h
  obtain ⟨a, ha, hb⟩ := h.bind
  exact ⟨a, ha, hb.pure⟩

theorem throw {e : ε} (h : Yields (MonadExcept.throw e : StateT σ (Except ε) α) a) : False := by
  obtain ⟨s, s', h⟩ := h
  cases h

theorem lift {y : Except ε α} (h : Yields (monadLift y : StateT σ (Except ε) α) a) : y = .ok a := by
  obtain ⟨s, s', h⟩ := h
  exact (run_monadLift_eq_ok.mp h).1

theorem mapM {f : α → StateT σ (Except ε) β} {xs : List α} {ys : List β}
    (h : Yields (xs.mapM f) ys) : List.Forall₂ (fun a b => Yields (f a) b) xs ys := by
  induction xs generalizing ys with
  | nil =>
    cases h.pure
    exact .nil
  | cons a xs ih =>
    rw [List.mapM_cons] at h
    obtain ⟨b, hb, h⟩ := h.bind
    obtain ⟨bs, hbs, h⟩ := h.bind
    cases h.pure
    exact .cons hb (ih hbs)

end Yields

/-- The result is none of the errors. -/
def Spares (bad : ε → Prop) (x : Except ε α) : Prop := ∀ e, x = .error e → ¬bad e

namespace Spares

variable {bad : ε → Prop}

theorem ok {a : α} : Spares bad (.ok a : Except ε α) := by
  intro e h
  cases h

theorem error {e : ε} (h : ¬bad e) : Spares bad (.error e : Except ε α) := by
  intro e' he
  cases he
  exact h

theorem bind {x : Except ε α} {f : α → Except ε β} (hx : Spares bad x)
    (hf : ∀ a, x = .ok a → Spares bad (f a)) : Spares bad (x >>= f) := by
  cases x with
  | error e => exact error (hx e rfl)
  | ok a => exact hf a rfl

theorem mapM {f : α → Except ε β} (hf : ∀ a, Spares bad (f a)) (xs : List α) :
    Spares bad (xs.mapM f) := by
  induction xs with
  | nil => exact ok
  | cons a xs ih =>
    rw [List.mapM_cons]
    exact bind (hf a) fun _ _ => bind ih fun _ _ => ok

theorem mapError {bad : ε' → Prop} {x : Except ε α} {f : ε → ε'} (h : Spares (fun e => bad (f e)) x) :
    Spares bad (x.mapError f) := by
  cases x with
  | error e => exact error (h e rfl)
  | ok a => exact ok

end Spares

/-- From no state the computation ends in one of the errors. -/
def Avoids (bad : ε → Prop) (x : StateT σ (Except ε) α) : Prop := ∀ s, Spares bad (x s)

namespace Avoids

variable {bad : ε → Prop}

theorem pure {a : α} : Avoids bad (Pure.pure a : StateT σ (Except ε) α) := fun _ => .ok

theorem throw {e : ε} (h : ¬bad e) : Avoids bad (MonadExcept.throw e : StateT σ (Except ε) α) :=
  fun _ => .error h

theorem modify {f : σ → σ} : Avoids bad (modify f : StateT σ (Except ε) Unit) := fun _ => .ok

theorem lift {x : Except ε α} (h : Spares bad x) :
    Avoids bad (monadLift x : StateT σ (Except ε) α) :=
  fun _ => .bind h fun _ _ => .ok

theorem bind {x : StateT σ (Except ε) α} {f : α → StateT σ (Except ε) β} (hx : Avoids bad x)
    (hf : ∀ a, Yields x a → Avoids bad (f a)) : Avoids bad (x >>= f) :=
  fun s => .bind (hx s) fun p hp => hf p.1 ⟨s, p.2, hp⟩ p.2

theorem map {x : StateT σ (Except ε) α} {f : α → β} (hx : Avoids bad x) : Avoids bad (f <$> x) :=
  bind hx fun _ _ => pure

theorem mapM {f : α → StateT σ (Except ε) β} {xs : List α} (hf : ∀ a ∈ xs, Avoids bad (f a)) :
    Avoids bad (xs.mapM f) := by
  induction xs with
  | nil => exact pure
  | cons a xs ih =>
    rw [List.mapM_cons]
    refine bind (hf a (List.mem_cons_self ..)) fun _ _ => map ?_
    exact ih fun b hb => hf b (List.mem_cons_of_mem _ hb)

end Avoids

end SvelteSyntax.Run
