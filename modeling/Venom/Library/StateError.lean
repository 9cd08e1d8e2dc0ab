import Mathlib.Data.List.Basic

/-! # Stateful computations that may fail

`EStateM ε σ α` runs on a state and ends in `ok` or `error`, in both cases with a
state: a failing step keeps the changes made before it.  This module inverts the
successful and the failing runs of the monad's operations and of a loop over a
list, so that no later proof unfolds `bind`, and gives the rules of what runs preserve
and of computations with one error.
-/

namespace Venom.Library.StateError

open EStateM (Result)

variable {ε σ α β : Type}

/-! ## Inversion -/

theorem except_bind_ok {x : Except ε α} {f : α → Except ε β} {b : β} :
    x >>= f = .ok b ↔ ∃ a, x = .ok a ∧ f a = .ok b := by
  cases x with
  | ok a => simp [bind, Except.bind]
  | error e => simp [bind, Except.bind]

theorem except_bind_error {x : Except ε α} {f : α → Except ε β} {e : ε} :
    (x >>= f) = .error e ↔ x = .error e ∨ ∃ a, x = .ok a ∧ f a = .error e := by
  cases x with
  | ok a => simp [bind, Except.bind]
  | error e' => simp [bind, Except.bind]

theorem except_bind_of_ok {x : Except ε α} {f : α → Except ε β} {a : α} (h : x = .ok a) :
    x >>= f = f a := by rw [h]; rfl

theorem except_mapM_ok {f : α → Except ε β} {g : α → β} {l : List α} (h : ∀ a ∈ l, f a = .ok (g a)) :
    l.mapM f = .ok (l.map g) := by
  induction l with
  | nil => rfl
  | cons a l ih =>
    rw [List.mapM_cons, except_bind_of_ok (h a (.head _)),
      except_bind_of_ok (ih fun b hb => h b (.tail _ hb)), List.map_cons]
    rfl

theorem run_bind_ok {x : EStateM ε σ α} {f : α → EStateM ε σ β} {s s' : σ} {b : β} :
    (x >>= f).run s = .ok b s' ↔ ∃ a s₁, x.run s = .ok a s₁ ∧ (f a).run s₁ = .ok b s' := by
  rw [EStateM.run_bind]
  cases x.run s with
  | ok a s₁ => simp
  | error e s₁ => simp

theorem run_bind_error {x : EStateM ε σ α} {f : α → EStateM ε σ β} {s s' : σ} {e : ε} :
    (x >>= f).run s = .error e s' ↔
      x.run s = .error e s' ∨ ∃ a s₁, x.run s = .ok a s₁ ∧ (f a).run s₁ = .error e s' := by
  rw [EStateM.run_bind]
  cases x.run s with
  | ok a s₁ => simp
  | error e s₁ => simp

@[simp] theorem run_pure {a : α} {s : σ} : (pure a : EStateM ε σ α).run s = .ok a s := rfl

@[simp] theorem run_get {s : σ} : (get : EStateM ε σ σ).run s = .ok s s := rfl

@[simp] theorem run_modify {f : σ → σ} {s : σ} :
    (modify f : EStateM ε σ PUnit).run s = .ok ⟨⟩ (f s) := rfl

@[simp] theorem run_throw {e : ε} {s : σ} : (throw e : EStateM ε σ α).run s = .error e s := rfl

theorem run_bind_of_ok {x : EStateM ε σ α} {f : α → EStateM ε σ β} {s s₁ : σ} {a : α}
    (h : x.run s = .ok a s₁) : (x >>= f).run s = (f a).run s₁ := by
  rw [EStateM.run_bind, h]

theorem run_bind_of_error {x : EStateM ε σ α} {f : α → EStateM ε σ β} {s s₁ : σ} {e : ε}
    (h : x.run s = .error e s₁) : (x >>= f).run s = .error e s₁ := by
  rw [EStateM.run_bind, h]

/-- The state a run ends in. -/
def after (x : EStateM ε σ α) (s : σ) : σ :=
  match x.run s with
  | .ok _ s' => s'
  | .error _ s' => s'

/-- The value of a successful run. -/
def valueOf (x : EStateM ε σ α) (s : σ) : Option α :=
  match x.run s with
  | .ok a _ => some a
  | .error _ _ => none

/-- A run that has a value is successful. -/
theorem run_of_valueOf {x : EStateM ε σ α} {s : σ} {a : α} (h : valueOf x s = some a) :
    x.run s = .ok a (after x s) := by
  unfold valueOf at h
  unfold after
  cases hr : x.run s with
  | ok b s' => rw [hr] at h; cases h; rfl
  | error e s' => rw [hr] at h; cases h

/-- The error of a run that fails. -/
def errorOf (x : EStateM ε σ α) (s : σ) : Option ε :=
  match x.run s with
  | .ok _ _ => none
  | .error e _ => some e

theorem run_of_errorOf {x : EStateM ε σ α} {s : σ} {e : ε} (h : errorOf x s = some e) :
    x.run s = .error e (after x s) := by
  unfold errorOf at h
  unfold after
  cases hr : x.run s with
  | ok b s' => rw [hr] at h; cases h
  | error e' s' => rw [hr] at h; cases h; rfl

theorem run_cases (x : EStateM ε σ α) (s : σ) :
    (∃ a, x.run s = .ok a (after x s)) ∨ ∃ e, x.run s = .error e (after x s) := by
  unfold after
  cases x.run s with
  | ok a s' => exact .inl ⟨a, rfl⟩
  | error e s' => exact .inr ⟨e, rfl⟩

theorem after_of_ok {x : EStateM ε σ α} {s s' : σ} {a : α} (h : x.run s = .ok a s') :
    after x s = s' := by rw [after, h]

theorem after_of_error {x : EStateM ε σ α} {s s' : σ} {e : ε} (h : x.run s = .error e s') :
    after x s = s' := by rw [after, h]

theorem valueOf_of_ok {x : EStateM ε σ α} {s s' : σ} {a : α} (h : x.run s = .ok a s') :
    valueOf x s = some a := by rw [valueOf, h]

theorem valueOf_of_error {x : EStateM ε σ α} {s s' : σ} {e : ε} (h : x.run s = .error e s') :
    valueOf x s = none := by rw [valueOf, h]

theorem valueOf_bind_of_ok {x : EStateM ε σ α} {f : α → EStateM ε σ β} {s s₁ : σ} {a : α}
    (h : x.run s = .ok a s₁) : valueOf (x >>= f) s = valueOf (f a) s₁ := by
  rw [valueOf, run_bind_of_ok h, valueOf]

theorem valueOf_bind_of_error {x : EStateM ε σ α} {f : α → EStateM ε σ β} {s s₁ : σ} {e : ε}
    (h : x.run s = .error e s₁) : valueOf (x >>= f) s = none :=
  valueOf_of_error (run_bind_of_error h)

theorem after_bind_of_ok {x : EStateM ε σ α} {f : α → EStateM ε σ β} {s s₁ : σ} {a : α}
    (h : x.run s = .ok a s₁) : after (x >>= f) s = after (f a) s₁ := by
  rw [after, run_bind_of_ok h, after]

theorem after_congr {x y : EStateM ε σ α} {s : σ} (h : x.run s = y.run s) :
    after x s = after y s := by rw [after, h, after]

theorem valueOf_congr {x y : EStateM ε σ α} {s : σ} (h : x.run s = y.run s) :
    valueOf x s = valueOf y s := by rw [valueOf, h, valueOf]

/-- The same computation on the states with a property it keeps. -/
def onSubtype {p : σ → Prop} (x : EStateM ε σ α) (hx : ∀ s, p s → p (after x s)) :
    EStateM ε { s // p s } α := fun s =>
  match x.run s.1 with
  | .ok a _ => .ok a ⟨after x s.1, hx s.1 s.2⟩
  | .error e _ => .error e ⟨after x s.1, hx s.1 s.2⟩

theorem onSubtype_ok {p : σ → Prop} {x : EStateM ε σ α} {hx : ∀ s, p s → p (after x s)}
    {s s' : { s // p s }} {a : α} :
    (onSubtype x hx).run s = .ok a s' ↔ x.run s.1 = .ok a s'.1 := by
  change onSubtype x hx s = _ ↔ _
  unfold onSubtype
  cases h : x.run s.1 with
  | ok b t => simp [Subtype.ext_iff, after_of_ok h]
  | error e t => simp

theorem onSubtype_error {p : σ → Prop} {x : EStateM ε σ α} {hx : ∀ s, p s → p (after x s)}
    {s s' : { s // p s }} {e : ε} :
    (onSubtype x hx).run s = .error e s' ↔ x.run s.1 = .error e s'.1 := by
  change onSubtype x hx s = _ ↔ _
  unfold onSubtype
  cases h : x.run s.1 with
  | ok b t => simp
  | error e t => simp [Subtype.ext_iff, after_of_error h]

/-! ## Frames

`Within R x` says that every run of `x`, whether it ends in `ok` or in `error`, leads to
a state related by `R`.  For a preorder `R` it passes through all operations.
-/

def Within (R : σ → σ → Prop) (x : EStateM ε σ α) : Prop := ∀ s, R s (after x s)

namespace Within

variable {R : σ → σ → Prop}

theorem ok {x : EStateM ε σ α} (hx : Within R x) {s s' : σ} {a : α} (h : x.run s = .ok a s') :
    R s s' := after_of_ok h ▸ hx s

theorem error {x : EStateM ε σ α} (hx : Within R x) {s s' : σ} {e : ε}
    (h : x.run s = .error e s') : R s s' := after_of_error h ▸ hx s

theorem pure [Std.Refl R] (a : α) : Within R (pure a : EStateM ε σ α) := fun s => Std.Refl.refl s

theorem throw [Std.Refl R] (e : ε) : Within R (throw e : EStateM ε σ α) :=
  fun s => Std.Refl.refl s

theorem get [Std.Refl R] : Within R (get : EStateM ε σ σ) := fun s => Std.Refl.refl s

theorem modify {f : σ → σ} (h : ∀ s, R s (f s)) : Within R (modify f : EStateM ε σ PUnit) := h

theorem bind [IsTrans σ R] {x : EStateM ε σ α} {f : α → EStateM ε σ β} (hx : Within R x)
    (hf : ∀ a, Within R (f a)) : Within R (x >>= f) := by
  intro s
  have hs := hx s
  unfold after at hs ⊢
  rw [EStateM.run_bind]
  cases hr : x.run s with
  | ok a s₁ =>
    rw [hr] at hs
    have hf₁ := hf a s₁
    unfold after at hf₁
    dsimp only at hs ⊢
    exact IsTrans.trans _ _ _ hs hf₁
  | error e s₁ => rw [hr] at hs; exact hs

theorem ite {c : Prop} [Decidable c] {x y : EStateM ε σ α} (hx : Within R x) (hy : Within R y) :
    Within R (if c then x else y) := by
  split
  · exact hx
  · exact hy

theorem forM [Std.Refl R] [IsTrans σ R] {f : α → EStateM ε σ PUnit} {l : List α}
    (hf : ∀ a ∈ l, Within R (f a)) : Within R (l.forM f) := by
  induction l with
  | nil => exact pure PUnit.unit
  | cons a l ih =>
    change Within R (f a >>= fun _ => l.forM f)
    exact bind (hf a (.head _)) (fun _ => ih fun b hb => hf b (.tail _ hb))

end Within

/-! ## Invariants

`Keeps I x Q` says that every run of `x` from a state with `I` ends in a state with `I`,
and that the result of a successful one has `Q`.
-/

structure Keeps (I : σ → Prop) (x : EStateM ε σ α) (Q : α → Prop) : Prop where
  ok : ∀ {s s' : σ} {a : α}, I s → x.run s = .ok a s' → I s' ∧ Q a
  error : ∀ {s s' : σ} {e : ε}, I s → x.run s = .error e s' → I s'

namespace Keeps

variable {I : σ → Prop} {Q Q' : α → Prop}

theorem of_after {x : EStateM ε σ α} (h : ∀ s, I s → I (after x s)) : Keeps I x fun _ => True where
  ok hs hrun := ⟨by rw [← after_of_ok hrun]; exact h _ hs, trivial⟩
  error hs hrun := by rw [← after_of_error hrun]; exact h _ hs

theorem after {x : EStateM ε σ α} (hx : Keeps I x Q) {s : σ} (hs : I s) : I (after x s) := by
  rcases run_cases x s with ⟨a, hrun⟩ | ⟨e, hrun⟩
  · exact (hx.ok hs hrun).1
  · exact hx.error hs hrun

theorem pure {a : α} (h : Q a) : Keeps I (pure a : EStateM ε σ α) Q :=
  ⟨fun hs hrun => by cases hrun; exact ⟨hs, h⟩, fun _ hrun => by cases hrun⟩

theorem throw (e : ε) : Keeps I (throw e : EStateM ε σ α) Q :=
  ⟨fun _ hrun => (by cases hrun), fun hs hrun => by cases hrun; exact hs⟩

/-- What is read has the invariant. -/
theorem get : Keeps I (get : EStateM ε σ σ) I :=
  ⟨fun hs hrun => by cases hrun; exact ⟨hs, hs⟩, fun _ hrun => by cases hrun⟩

theorem set {t : σ} (h : I t) : Keeps I (set t : EStateM ε σ PUnit) fun _ => True :=
  ⟨fun _ hrun => by cases hrun; exact ⟨h, trivial⟩, fun _ hrun => by cases hrun⟩

theorem modify {f : σ → σ} (h : ∀ s, I s → I (f s)) :
    Keeps I (modify f : EStateM ε σ PUnit) fun _ => True :=
  ⟨fun hs hrun => by cases hrun; exact ⟨h _ hs, trivial⟩, fun _ hrun => by cases hrun⟩

theorem bind {x : EStateM ε σ α} {f : α → EStateM ε σ β} {R : β → Prop} (hx : Keeps I x Q)
    (hf : ∀ a, Q a → Keeps I (f a) R) : Keeps I (x >>= f) R where
  ok hs hrun := by
    obtain ⟨a, s₁, hrun₁, hrun₂⟩ := run_bind_ok.mp hrun
    obtain ⟨hs₁, ha⟩ := hx.ok hs hrun₁
    exact (hf a ha).ok hs₁ hrun₂
  error hs hrun := by
    rcases run_bind_error.mp hrun with hrun₁ | ⟨a, s₁, hrun₁, hrun₂⟩
    · exact hx.error hs hrun₁
    · obtain ⟨hs₁, ha⟩ := hx.ok hs hrun₁
      exact (hf a ha).error hs₁ hrun₂

theorem ite {c : Prop} [Decidable c] {x y : EStateM ε σ α} (hx : c → Keeps I x Q)
    (hy : ¬ c → Keeps I y Q) : Keeps I (if c then x else y) Q := by
  split
  next hc => exact hx hc
  next hc => exact hy hc

theorem forM {γ : Type} {f : γ → EStateM ε σ PUnit} {l : List γ}
    (hf : ∀ a ∈ l, Keeps I (f a) fun _ => True) : Keeps I (l.forM f) fun _ => True := by
  induction l with
  | nil => exact pure trivial
  | cons a l ih =>
    change Keeps I (f a >>= fun _ => l.forM f) _
    exact bind (hf a (.head _)) fun _ _ => ih fun b hb => hf b (.tail _ hb)

end Keeps

/-- Every run of `x` from a state with `I` ends in a state with `I`, unless it succeeds with a
    result that has `B`. -/
structure KeepsUnless (I : σ → Prop) (x : EStateM ε σ α) (B : α → Prop) : Prop where
  ok : ∀ {s s' : σ} {a : α}, I s → x.run s = .ok a s' → I s' ∨ B a
  error : ∀ {s s' : σ} {e : ε}, I s → x.run s = .error e s' → I s'

namespace KeepsUnless

variable {I : σ → Prop} {Q B : α → Prop}

theorem of_keeps {x : EStateM ε σ α} (hx : Keeps I x Q) : KeepsUnless I x B :=
  ⟨fun hs hrun => .inl (hx.ok hs hrun).1, hx.error⟩

/-- What comes before keeps the invariant. -/
theorem bind {x : EStateM ε σ α} {f : α → EStateM ε σ β} {B : β → Prop} (hx : Keeps I x Q)
    (hf : ∀ a, Q a → KeepsUnless I (f a) B) : KeepsUnless I (x >>= f) B where
  ok hs hrun := by
    obtain ⟨a, s₁, hrun₁, hrun₂⟩ := run_bind_ok.mp hrun
    obtain ⟨hs₁, ha⟩ := hx.ok hs hrun₁
    exact (hf a ha).ok hs₁ hrun₂
  error hs hrun := by
    rcases run_bind_error.mp hrun with hrun₁ | ⟨a, s₁, hrun₁, hrun₂⟩
    · exact hx.error hs hrun₁
    · obtain ⟨hs₁, ha⟩ := hx.ok hs hrun₁
      exact (hf a ha).error hs₁ hrun₂

theorem after {x : EStateM ε σ α} (hx : KeepsUnless I x B) {s : σ} (hs : I s) :
    I (after x s) ∨ ∃ a, valueOf x s = some a ∧ B a := by
  rcases run_cases x s with ⟨a, hrun⟩ | ⟨e, hrun⟩
  · exact (hx.ok hs hrun).imp_right fun hb => ⟨a, valueOf_of_ok hrun, hb⟩
  · exact .inl (hx.error hs hrun)

end KeepsUnless

/-! ## Loops over a list -/

/-- What every iteration preserves, a finished loop preserves.  The invariant sees
    the elements already handled. -/
theorem forM_ok_induction {f : α → EStateM ε σ PUnit} (inv : List α → σ → Prop) {l : List α}
    {s s' : σ} (hrun : (l.forM f).run s = .ok ⟨⟩ s') (hinit : inv [] s)
    (hstep : ∀ done a rest s₁ s₂, l = done ++ a :: rest → inv done s₁ →
      (f a).run s₁ = .ok ⟨⟩ s₂ → inv (done ++ [a]) s₂) : inv l s' := by
  have go : ∀ (rest done : List α) (s₁ : σ), l = done ++ rest → inv done s₁ →
      (rest.forM f).run s₁ = .ok ⟨⟩ s' → inv l s' := by
    intro rest
    induction rest with
    | nil =>
      intro done s₁ hl hinv hr
      rw [show ([].forM f) = (pure ⟨⟩ : EStateM ε σ PUnit) from rfl, run_pure,
        Result.ok.injEq] at hr
      rw [hl, List.append_nil, ← hr.2]
      exact hinv
    | cons a rest ih =>
      intro done s₁ hl hinv hr
      change (f a >>= fun _ => rest.forM f).run s₁ = _ at hr
      obtain ⟨⟨⟩, s₂, ha, hr⟩ := run_bind_ok.mp hr
      exact ih (done ++ [a]) s₂ (by simp [hl]) (hstep done a rest s₁ s₂ hl hinv ha) hr
  exact go l [] s rfl hinit hrun

/-- A loop that fails has ended in an iteration that failed, after some that did not. -/
theorem forM_error_induction {f : α → EStateM ε σ PUnit} (inv : List α → σ → Prop) {l : List α}
    {s s' : σ} {e : ε} (hrun : (l.forM f).run s = .error e s') (hinit : inv [] s)
    (hstep : ∀ done a rest s₁ s₂, l = done ++ a :: rest → inv done s₁ →
      (f a).run s₁ = .ok ⟨⟩ s₂ → inv (done ++ [a]) s₂) :
    ∃ done a rest s₁, l = done ++ a :: rest ∧ inv done s₁ ∧ (f a).run s₁ = .error e s' := by
  have go : ∀ (rest done : List α) (s₁ : σ), l = done ++ rest → inv done s₁ →
      (rest.forM f).run s₁ = .error e s' →
      ∃ done a rest s₁, l = done ++ a :: rest ∧ inv done s₁ ∧ (f a).run s₁ = .error e s' := by
    intro rest
    induction rest with
    | nil =>
      intro done s₁ _ _ hr
      cases hr
    | cons a rest ih =>
      intro done s₁ hl hinv hr
      change (f a >>= fun _ => rest.forM f).run s₁ = _ at hr
      rcases run_bind_error.mp hr with ha | ⟨⟨⟩, s₂, ha, hr⟩
      · exact ⟨done, a, rest, s₁, hl, hinv, ha⟩
      · exact ih (done ++ [a]) s₂ (by simp [hl]) (hstep done a rest s₁ s₂ hl hinv ha) hr
  exact go l [] s rfl hinit hrun

/-- A loop succeeds when every iteration does, from every state the invariant allows. -/
theorem forM_total {f : α → EStateM ε σ PUnit} (inv : List α → σ → Prop) {l : List α} {s : σ}
    (hinit : inv [] s)
    (hstep : ∀ done a rest s₁, l = done ++ a :: rest → inv done s₁ →
      ∃ s₂, (f a).run s₁ = .ok ⟨⟩ s₂ ∧ inv (done ++ [a]) s₂) :
    ∃ s', (l.forM f).run s = .ok ⟨⟩ s' ∧ inv l s' := by
  have go : ∀ (rest done : List α) (s₁ : σ), l = done ++ rest → inv done s₁ →
      ∃ s', (rest.forM f).run s₁ = .ok ⟨⟩ s' ∧ inv l s' := by
    intro rest
    induction rest with
    | nil =>
      intro done s₁ hl hinv
      exact ⟨s₁, rfl, by rwa [hl, List.append_nil]⟩
    | cons a rest ih =>
      intro done s₁ hl hinv
      obtain ⟨s₂, ha, hinv₂⟩ := hstep done a rest s₁ hl hinv
      obtain ⟨s', hr, hinv'⟩ := ih (done ++ [a]) s₂ (by simp [hl]) hinv₂
      refine ⟨s', ?_, hinv'⟩
      change (f a >>= fun _ => rest.forM f).run s₁ = _
      rw [run_bind_of_ok ha, hr]
  exact go l [] s rfl hinit

/-! ## One error

`FailsOnly e₀ x` says that every failure of `x` is the error `e₀`.
-/

section

variable {γ : Type} {e₀ : ε}

def FailsOnly (e₀ : ε) (x : EStateM ε σ α) : Prop := ∀ ⦃s e s'⦄, x.run s = .error e s' → e = e₀

namespace FailsOnly

theorem pure {a : α} : FailsOnly e₀ (pure a : EStateM ε σ α) := fun _ _ _ h => by cases h

theorem get : FailsOnly e₀ (get : EStateM ε σ σ) := fun _ _ _ h => by cases h

theorem modify {f : σ → σ} : FailsOnly e₀ (modify f : EStateM ε σ PUnit) := fun _ _ _ h => by cases h

theorem throw : FailsOnly e₀ (throw e₀ : EStateM ε σ α) := fun _ _ _ h => by
  cases h
  rfl

theorem adaptExcept {ε' : Type} {x : EStateM ε' σ α} : FailsOnly e₀ (x.adaptExcept fun _ => e₀) :=
  fun s e s' h => by
    change x.adaptExcept (fun _ => e₀) s = _ at h
    unfold EStateM.adaptExcept at h
    split at h
    next => cases h; rfl
    next => cases h

theorem bind {x : EStateM ε σ α} {f : α → EStateM ε σ β} (hx : FailsOnly e₀ x)
    (hf : ∀ a, FailsOnly e₀ (f a)) : FailsOnly e₀ (x >>= f) := fun _ _ _ h => by
  rcases run_bind_error.mp h with hfail | ⟨a, s₁, -, hfail⟩
  · exact hx hfail
  · exact hf a hfail

theorem ite {c : Prop} [Decidable c] {x y : EStateM ε σ α} (hx : FailsOnly e₀ x)
    (hy : FailsOnly e₀ y) : FailsOnly e₀ (if c then x else y) := by
  split
  · exact hx
  · exact hy

theorem forM {f : γ → EStateM ε σ PUnit} {l : List γ} (hf : ∀ a, FailsOnly e₀ (f a)) :
    FailsOnly e₀ (l.forM f) := by
  induction l with
  | nil => exact pure
  | cons a l ih =>
    change FailsOnly e₀ (f a >>= fun _ => l.forM f)
    exact bind (hf a) fun _ => ih

end FailsOnly

end

end Venom.Library.StateError
