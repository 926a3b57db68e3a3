import Mathlib.Data.List.Forall2

/-!
This module contains the computations that may fail: what it takes for one of them to give a result.
-/

namespace DicePool

variable {ε α β γ σ : Type}

section Except

@[simp]
theorem throw_ne_ok (e : ε) (a : α) : (throw e : Except ε α) ≠ .ok a := by
  simp [throw, throwThe, MonadExceptOf.throw]

@[simp]
theorem pure_eq_ok_iff {a b : α} : (pure a : Except ε α) = .ok b ↔ a = b := by
  simp [pure, Except.pure]

theorem bind_eq_ok_iff {x : Except ε α} {f : α → Except ε β} {b : β} :
    x >>= f = .ok b ↔ ∃ a, x = .ok a ∧ f a = .ok b := by
  cases x with
  | error e => simp [bind, Except.bind]
  | ok a => simp [bind, Except.bind]

theorem bind_eq_error_iff {x : Except ε α} {f : α → Except ε β} {e : ε} :
    x >>= f = .error e ↔ x = .error e ∨ ∃ a, x = .ok a ∧ f a = .error e := by
  cases x with
  | error e => simp [bind, Except.bind]
  | ok a => simp [bind, Except.bind]

theorem map_eq_ok_iff {x : Except ε α} {f : α → β} {b : β} :
    f <$> x = .ok b ↔ ∃ a, x = .ok a ∧ f a = b := by
  rw [map_eq_pure_bind, bind_eq_ok_iff]
  simp only [pure_eq_ok_iff]

theorem mapM_eq_ok_iff {f : α → Except ε β} {as : List α} {bs : List β} :
    as.mapM f = .ok bs ↔ List.Forall₂ (fun a b => f a = .ok b) as bs := by
  induction as generalizing bs with
  | nil =>
    rw [List.mapM_nil, pure_eq_ok_iff, List.forall₂_nil_left_iff, eq_comm]
  | cons a as ih =>
    rw [List.mapM_cons, List.forall₂_cons_left_iff, bind_eq_ok_iff]
    simp only [bind_eq_ok_iff, pure_eq_ok_iff, ih]
    constructor
    · rintro ⟨b, hb, bs, hbs, rfl⟩
      exact ⟨b, bs, hb, hbs, rfl⟩
    · rintro ⟨b, bs, hb, hbs, rfl⟩
      exact ⟨b, hb, bs, hbs, rfl⟩

theorem exists_of_mapM_eq_ok {f : α → Except ε β} {as : List α} {bs : List β}
    (h : as.mapM f = .ok bs) : ∀ a ∈ as, ∃ b, f a = .ok b := by
  rw [mapM_eq_ok_iff] at h
  induction h with
  | nil => simp
  | cons hab _ ih => exact List.forall_mem_cons.2 ⟨⟨_, hab⟩, ih⟩

theorem mapM_eq_error_iff {f : α → Except ε β} {as : List α} {e : ε} :
    as.mapM f = .error e ↔
      ∃ front a back, as = front ++ a :: back ∧ (∀ x ∈ front, ∃ b, f x = .ok b) ∧
        f a = .error e := by
  induction as with
  | nil => simp [pure, Except.pure]
  | cons a as ih =>
    have hrest : ∀ b, (as.mapM f >>= fun bs => pure (b :: bs)) = .error e ↔
        as.mapM f = .error e := by
      intro b
      cases as.mapM f <;> simp [bind, Except.bind, pure, Except.pure]
    rw [List.mapM_cons, bind_eq_error_iff]
    simp only [hrest, ih]
    constructor
    · rintro (ha | ⟨b, hb, front, x, back, rfl, hfront, hx⟩)
      · exact ⟨[], a, as, rfl, by simp, ha⟩
      · exact ⟨a :: front, x, back, rfl, List.forall_mem_cons.2 ⟨⟨b, hb⟩, hfront⟩, hx⟩
    · rintro ⟨front, x, back, heq, hfront, hx⟩
      cases front with
      | nil =>
        obtain ⟨rfl, rfl⟩ := List.cons.inj heq
        exact .inl hx
      | cons y front =>
        obtain ⟨rfl, rfl⟩ := List.cons.inj heq
        rw [List.forall_mem_cons] at hfront
        obtain ⟨⟨b, hb⟩, hfront⟩ := hfront
        exact .inr ⟨b, hb, front, x, back, rfl, hfront, hx⟩

theorem exists_ok_or_error (x : Except ε α) : (∃ a, x = .ok a) ∨ ∃ e, x = .error e := by
  cases x with
  | error e => exact .inr ⟨e, rfl⟩
  | ok a => exact .inl ⟨a, rfl⟩

end Except

section State

theorem run_state_bind (x : StateM σ α) (f : α → StateM σ β) (s : σ) :
    (x >>= f).run s = (f (x.run s).1).run (x.run s).2 := rfl

end State

section ExceptT

theorem run_bind (x : ExceptT ε (StateM σ) α) (f : α → ExceptT ε (StateM σ) β) (s : σ) :
    (x >>= f).run s =
      match (x.run s).1 with
      | .ok a => (f a).run (x.run s).2
      | .error e => (.error e, (x.run s).2) := by
  have hstate : ∀ k : Except ε α → StateM σ (Except ε β),
      (x.run >>= k) s = k (x.run s).1 (x.run s).2 := fun _ => rfl
  rw [ExceptT.run_bind, hstate]
  cases (x.run s).1 <;> rfl

theorem run_bind_eq_ok_iff {x : ExceptT ε (StateM σ) α} {f : α → ExceptT ε (StateM σ) β}
    {s s' : σ} {b : β} :
    (x >>= f).run s = (.ok b, s') ↔ ∃ a t, x.run s = (.ok a, t) ∧ (f a).run t = (.ok b, s') := by
  rw [run_bind]
  constructor
  · intro h
    split at h
    · next a ha => exact ⟨a, (x.run s).2, Prod.ext ha rfl, h⟩
    · cases h
  · rintro ⟨a, t, hx, hf⟩
    rw [hx]
    exact hf

theorem run_pure_eq_ok_iff {s s' : σ} {a b : α} :
    (pure a : ExceptT ε (StateM σ) α).run s = (.ok b, s') ↔ a = b ∧ s = s' := by
  constructor
  · rintro ⟨⟩
    exact ⟨rfl, rfl⟩
  · rintro ⟨rfl, rfl⟩
    rfl

theorem run_liftM_eq_ok_iff {x : StateM σ α} {s s' : σ} {a : α} :
    (liftM x : ExceptT ε (StateM σ) α).run s = (.ok a, s') ↔ x.run s = (a, s') := by
  have hlift : (liftM x : ExceptT ε (StateM σ) α).run s = (.ok (x.run s).1, (x.run s).2) := rfl
  rw [hlift]
  constructor
  · intro h
    obtain ⟨ha, hs⟩ := Prod.mk.inj h
    exact Prod.ext (Except.ok.inj ha) hs
  · intro h
    rw [h]

theorem eq_of_run_liftM {x : StateM σ α} {s s' : σ} {a : α}
    (h : (liftM x : ExceptT ε (StateM σ) α).run s = (.ok a, s')) : a = (x.run s).1 := by
  rw [run_liftM_eq_ok_iff.1 h]

theorem run_get_bind_modify (read : σ → Except ε α) (write : α → σ → σ) (s : σ) :
    (do let a ← read (← get); modify (write a) : ExceptT ε (StateM σ) Unit).run s =
      ((fun _ => ()) <$> read s, (read s).toOption.elim s fun a => write a s) := by
  have hrun : ∀ x : Except ε α, (do let a ← x; modify (write a) : ExceptT ε (StateM σ) Unit).run s =
      ((fun _ => ()) <$> x, x.toOption.elim s fun a => write a s) := by
    intro x
    cases x <;> rfl
  exact hrun (read s)

theorem exists_run_mapM {P : α → β → Prop} {R : α → γ → Prop} {f : β → ExceptT ε (StateM σ) γ}
    {as : List α} {bs : List β} (h : List.Forall₂ P as bs)
    (hf : ∀ a b, P a b → ∀ s, ∃ c s', (f b).run s = (.ok c, s') ∧ R a c) (s : σ) :
    ∃ cs s', (bs.mapM f).run s = (.ok cs, s') ∧ List.Forall₂ R as cs := by
  induction h generalizing s with
  | nil => exact ⟨[], s, rfl, .nil⟩
  | cons hab _ ih =>
    obtain ⟨c, s₁, hc, hR⟩ := hf _ _ hab s
    obtain ⟨cs, s₂, hcs, hall⟩ := ih s₁
    refine ⟨c :: cs, s₂, ?_, .cons hR hall⟩
    rw [List.mapM_cons, run_bind_eq_ok_iff]
    exact ⟨c, s₁, hc, run_bind_eq_ok_iff.2 ⟨cs, s₂, hcs, rfl⟩⟩

end ExceptT

end DicePool
