import DicePool.Proofs.Roll.Completion
import DicePool.Roll

/-!
This module contains rolls of several pools at once. The main statement is
`ofRequests_all_or_nothing`: either a pool is refused and no die is drawn, or every pool is rolled
to the end.
-/

namespace DicePool

variable {σ : Type}

theorem PoolRequest.exists_spec_of_toPool {r : PoolRequest} {p : Pool} (h : r.toPool = .ok p) :
    ∃ spec, Pool.ofSpec spec = .ok p := by
  cases r with
  | sides n => exact ⟨_, h⟩
  | text text =>
    obtain ⟨spec, _, hp⟩ := bind_eq_ok_iff.1 h
    exact ⟨spec, hp⟩
  | spec spec => exact ⟨spec, h⟩

namespace Outcome

variable {requests : List PoolRequest} {ps : List Pool} {e : RollError}

inductive Refusal : List PoolRequest → RollError → Prop where
  | empty : Refusal [] (.invalidOptions .noPools)
  | first {front back : List PoolRequest} {r : PoolRequest} {e : RollError}
      (hfront : ∀ x ∈ front, ∃ p, x.toPool = .ok p) (hr : r.toPool = .error e) :
      Refusal (front ++ r :: back) e

theorem pools_eq_ok_iff :
    pools requests = .ok ps ↔
      requests ≠ [] ∧ List.Forall₂ (fun r p => r.toPool = .ok p) requests ps := by
  rw [pools, bind_eq_ok_iff, ← mapM_eq_ok_iff]
  constructor
  · rintro ⟨qs, hqs, h⟩
    cases qs with
    | nil => simp at h
    | cons q qs =>
      obtain rfl := pure_eq_ok_iff.1 h
      refine ⟨?_, hqs⟩
      rintro rfl
      cases hqs
  · rintro ⟨hne, h⟩
    refine ⟨ps, h, ?_⟩
    cases ps with
    | nil =>
      rw [mapM_eq_ok_iff, List.forall₂_nil_right_iff] at h
      contradiction
    | cons p ps => rfl

theorem pools_eq_error_iff : pools requests = .error e ↔ Refusal requests e := by
  rw [pools, bind_eq_error_iff]
  constructor
  · rintro (h | ⟨qs, hqs, h⟩)
    · obtain ⟨front, r, back, rfl, hfront, hr⟩ := mapM_eq_error_iff.1 h
      exact .first hfront hr
    · cases qs with
      | nil =>
        rw [mapM_eq_ok_iff, List.forall₂_nil_right_iff] at hqs
        cases h
        rw [hqs]
        exact .empty
      | cons q qs => cases h
  · intro h
    cases h with
    | empty => exact .inr ⟨[], rfl, rfl⟩
    | first hfront hr => exact .inl (mapM_eq_error_iff.2 ⟨_, _, _, rfl, hfront, hr⟩)

theorem exists_refusal_iff :
    (∃ e, Refusal requests e) ↔ requests = [] ∨ ∃ r ∈ requests, ∃ e, r.toPool = .error e := by
  constructor
  · rintro ⟨e, h⟩
    cases h with
    | empty => exact .inl rfl
    | @first _ _ r e _ hr => exact .inr ⟨r, by simp, e, hr⟩
  · rintro (rfl | ⟨r, hr, e, he⟩)
    · exact ⟨_, .empty⟩
    · obtain ⟨ps, hps⟩ | ⟨e', he'⟩ := exists_ok_or_error (requests.mapM PoolRequest.toPool)
      · obtain ⟨p, hp⟩ := exists_of_mapM_eq_ok hps r hr
        rw [he] at hp
        contradiction
      · obtain ⟨front, x, back, rfl, hfront, hx⟩ := mapM_eq_error_iff.1 he'
        exact ⟨e', .first hfront hx⟩

theorem run_ofRequests_of_refusal (h : Refusal requests e) (float : StateM σ Float) (s : σ) :
    (ofRequests requests float).run s = (.error e, s) := by
  rw [ofRequests, pools_eq_error_iff.2 h]
  rfl

theorem exists_run_ofRequests_of_roll {Q : Record → Prop} (h : pools requests = .ok ps)
    (float : StateM σ Float) (hQ : ∀ spec p, Pool.ofSpec spec = .ok p → ∀ s r s',
      (p.roll float).run s = (.ok r, s') → Q r) (s : σ) :
    ∃ records s', (ofRequests requests float).run s = (.ok (.ofRecords records), s') ∧
      List.Forall₂ (fun r record => r.toPool = .ok record.pool) requests records ∧
      ∀ record ∈ records, Q record := by
  have hroll : ∀ (r : PoolRequest) p, r.toPool = .ok p → ∀ s, ∃ record s',
      (p.roll float).run s = (.ok record, s') ∧ Q record ∧ r.toPool = .ok record.pool := by
    intro r p hp s
    obtain ⟨spec, hspec⟩ := r.exists_spec_of_toPool hp
    obtain ⟨record, s', hrun, rfl⟩ := Pool.exists_run_roll hspec float s
    exact ⟨record, s', hrun, hQ spec _ hspec s record s' hrun, hp⟩
  obtain ⟨records, s', hrun, hrecords⟩ := exists_run_mapM (pools_eq_ok_iff.1 h).2 hroll s
  obtain ⟨hall, hpools⟩ := (List.forall₂_and_left _ _).1 hrecords.flip
  refine ⟨records, s', ?_, hpools.flip, hall⟩
  rw [ofRequests, h]
  exact run_bind_eq_ok_iff.2 ⟨ps, s, rfl, run_bind_eq_ok_iff.2 ⟨records, s', hrun, rfl⟩⟩

theorem exists_run_ofRequests (h : pools requests = .ok ps) (float : StateM σ Float) (s : σ) :
    ∃ o s', (ofRequests requests float).run s = (.ok o, s') ∧
      List.Forall₂ (fun r record => r.toPool = .ok record.pool) requests o.records := by
  obtain ⟨records, s', hrun, hrecords, _⟩ :=
    exists_run_ofRequests_of_roll (Q := fun _ => True) h float (by simp) s
  exact ⟨.ofRecords records, s', hrun, hrecords⟩

theorem ofRequests_all_or_nothing (requests : List PoolRequest) (float : StateM σ Float) (s : σ) :
    (∀ e s', (ofRequests requests float).run s = (.error e, s') ↔ Refusal requests e ∧ s' = s) ∧
      ((∃ e, Refusal requests e) ↔ requests = [] ∨ ∃ r ∈ requests, ∃ e, r.toPool = .error e) ∧
      ((¬ ∃ e, Refusal requests e) → ∃ o s', (ofRequests requests float).run s = (.ok o, s') ∧
        List.Forall₂ (fun r record => r.toPool = .ok record.pool) requests o.records) ∧
      ∀ spec p, Pool.ofSpec spec = .ok p →
        (∀ u, p.modifiers.unique = some u → u.check p.quantity p.sides = .ok ()) ∧
          ∃ r s', (p.roll float).run s = (.ok r, s') := by
  refine ⟨?_, exists_refusal_iff, ?_, ?_⟩
  · intro e s'
    constructor
    · intro h
      obtain ⟨ps, hps⟩ | ⟨e', he'⟩ := exists_ok_or_error (pools requests)
      · obtain ⟨o, s₁, hrun, _⟩ := exists_run_ofRequests hps float s
        rw [hrun] at h
        cases h
      · rw [pools_eq_error_iff] at he'
        rw [run_ofRequests_of_refusal he'] at h
        cases h
        exact ⟨he', rfl⟩
    · rintro ⟨h, rfl⟩
      exact run_ofRequests_of_refusal h float _
  · intro h
    obtain ⟨ps, hps⟩ | ⟨e, he⟩ := exists_ok_or_error (pools requests)
    · exact exists_run_ofRequests hps float s
    · exact absurd ⟨e, pools_eq_error_iff.1 he⟩ h
  · intro spec p hp
    obtain ⟨r, s', hrun, _⟩ := Pool.exists_run_roll hp float s
    exact ⟨fun u hu => Unique.check_eq_ok_iff.2 (Pool.isSatisfiable_of_unique hp hu), r, s', hrun⟩

theorem ofRequests_all_or_nothing_second :
    (ofRequests [.sides 6, .text "2d1U", .sides 0] (Draw.counted (Draw.cycle #[0.5] 0))).run
      (0, 0) = (.error (.uniqueUnsatisfiable 2 1), (0, 0)) := by
  have hfirst : ∀ x ∈ [PoolRequest.sides 6], ∃ p, x.toPool = .ok p := by
    rw [List.forall_mem_singleton]
    exact ⟨_, rfl⟩
  have hsecond : (PoolRequest.text "2d1U").toPool = .error (.uniqueUnsatisfiable 2 1) := by
    decide +kernel
  exact ((ofRequests_all_or_nothing _ _ _).1 _ _).2 ⟨.first hfirst hsecond, rfl⟩

end Outcome

end DicePool
