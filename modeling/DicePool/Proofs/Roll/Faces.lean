import DicePool.Proofs.Roll.Cost
import DicePool.Proofs.Roll.Requests

/-!
This module contains the rolls of dice with faces of their own. Every die shows one of the faces, so
that none is lost on the way from the places that are rolled to the faces that are shown, and the
places do not count to a total. The main statement is `Outcome.ofRequests_shows_faces`.
-/

namespace DicePool

variable {σ : Type}

/-! ### Faces and their places -/

structure Shows (faces : List String) (roll : Int64) (face : String) : Prop where
  one_le : 1 ≤ roll.toInt
  face : faces[roll.toInt.toNat - 1]? = some face

theorem exists_faceAt? {faces : List String} {roll : Int64} (h : IsFace faces.length roll) :
    ∃ face, faceAt? faces roll = some face ∧ Shows faces roll face := by
  obtain ⟨hlo, hhi⟩ := h
  have hlt : roll.toInt.toNat - 1 < faces.length := by omega
  have hle : 1 ≤ roll := Int64.le_iff_toInt_le.2 hlo
  have hface := List.getElem?_eq_getElem hlt
  refine ⟨faces[roll.toInt.toNat - 1], ?_, hlo, hface⟩
  rw [faceAt?, if_pos hle, hface]

theorem forall₂_shows {faces : List String} {rolls : List Int64}
    (h : ∀ v ∈ rolls, IsFace faces.length v) :
    List.Forall₂ (Shows faces) rolls (rolls.filterMap (faceAt? faces)) := by
  induction rolls with
  | nil => exact .nil
  | cons roll rolls ih =>
    rw [List.forall_mem_cons] at h
    obtain ⟨face, hface, hshows⟩ := exists_faceAt? h.1
    rw [List.filterMap_cons_some hface]
    exact .cons hshows (ih h.2)

theorem Shows.mem {faces : List String} {roll : Int64} {face : String}
    (h : Shows faces roll face) : face ∈ faces :=
  List.mem_of_getElem? h.face

theorem Draw.yields_place (float : StateM σ Float) {count : Nat} (h : count ≠ 0) :
    Yields (die float (.ofNat count)) (IsFace count) := by
  by_cases hsides : UInt32.ofNat count = 0
  · rw [hsides]
    have hone : (die float 0 : StateM σ Int64) = pure 1 := rfl
    rw [hone]
    refine .pure ⟨by decide, ?_⟩
    change (1 : Int) ≤ count
    omega
  · refine (yields_die float hsides).imp fun v hv => hv.mono ?_
    rw [UInt32.toNat_ofNat']
    exact Nat.mod_le _ _

/-! ### Pools -/

structure Record.ShowsFaces (r : Record) (faces : List String) (quantity : UInt32) : Prop where
  rolls : r.rolls.length = quantity.toNat
  logs : r.history.logs = []
  shown : ∃ shown, r.faces = some shown ∧ shown.length = quantity.toNat ∧
    List.Forall₂ (Shows faces) r.rolls shown

structure Record.AgreesOnFaces (r : Record) : Prop where
  isCustom : r.isCustom = r.pool.isCustom
  shows_faces : ∀ faces, r.pool.faces = some faces → r.ShowsFaces faces r.pool.quantity

namespace Pool

variable {spec : PoolSpec} {p : Pool} {float : StateM σ Float} {s s' : σ} {r : Record}

theorem showsFaces_of_roll (h : ofSpec spec = .ok p) {faces : List String}
    (hfaces : p.faces = some faces) (hroll : (p.roll float).run s = (.ok r, s')) :
    r.ShowsFaces faces p.quantity := by
  obtain ⟨hne, hm⟩ := modifiers_of_faces h hfaces
  have hcount : faces.length ≠ 0 := List.length_pos_iff.2 hne |>.ne'
  obtain ⟨initialRolls, s₁, t, hinitial, happly, rfl⟩ := exists_of_roll hroll
  rw [hm] at happly
  obtain ⟨rfl, rfl⟩ := run_pure_eq_ok_iff.1 happly
  have hlength : initialRolls.length = p.quantity.toNat := by
    have := Draw.length_times (Draw.die float p.sides) p.quantity.toNat s
    rwa [hinitial] at this
  have hplaces : ∀ v ∈ initialRolls, IsFace faces.length v := by
    have := (Draw.yields_place float hcount).times p.quantity.toNat s
    rwa [← sides_of_faces h hfaces, hinitial] at this
  have hshown := forall₂_shows hplaces
  refine ⟨hlength, rfl, initialRolls.filterMap (faceAt? faces), ?_, ?_, hshown⟩
  · rw [Record.ofTally, hfaces, Option.map_some]
  · rw [← hshown.length_eq, hlength]

theorem agrees_of_roll (h : ofSpec spec = .ok p) (hroll : (p.roll float).run s = (.ok r, s')) :
    r.AgreesOnFaces := by
  have hshows : ∀ faces, p.faces = some faces → r.ShowsFaces faces p.quantity :=
    fun faces hfaces => showsFaces_of_roll h hfaces hroll
  obtain ⟨initialRolls, _, t, _, _, rfl⟩ := exists_of_roll hroll
  exact ⟨Option.isSome_map, hshows⟩

end Pool

/-! ### Outcomes -/

namespace Outcome

theorem total_ofRecords (records : List Record) :
    (ofRecords records).total =
      Bounded.sum ((records.filter fun r => !r.isCustom).map Record.appliedTotal) := by
  have hzero : ∀ a, Bounded.add a 0 = a := by simp [Bounded.add]
  have hfold : ∀ acc, (records.map share).foldl Bounded.add acc =
      ((records.filter fun r => !r.isCustom).map Record.appliedTotal).foldl Bounded.add acc := by
    induction records with
    | nil => intro acc; rfl
    | cons r records ih =>
      intro acc
      rw [List.map_cons, List.foldl_cons, ih, share]
      cases hr : r.isCustom with
      | true => rw [List.filter_cons_of_neg (by simp [hr]), if_pos rfl, hzero]
      | false =>
        rw [List.filter_cons_of_pos (by simp [hr]), if_neg Bool.false_ne_true, List.map_cons,
          List.foldl_cons]
  exact hfold 0

theorem exists_faces_ofRecords (records : List Record) :
    ∃ shown : List (List String),
      (records.filter Record.isCustom).map Record.faces = shown.map some ∧
        (ofRecords records).faces = shown.flatten := by
  induction records with
  | nil => exact ⟨[], rfl, rfl⟩
  | cons r records ih =>
    obtain ⟨shown, hshown, hfaces⟩ := ih
    have hcons : (ofRecords (r :: records)).faces =
        r.faces.getD [] ++ (ofRecords records).faces := rfl
    cases hr : r.faces with
    | none =>
      have hcustom : ¬ r.isCustom := by simp [Record.isCustom, hr]
      refine ⟨shown, ?_, ?_⟩
      · rw [List.filter_cons_of_neg hcustom, hshown]
      · rw [hcons, hr, Option.getD_none, List.nil_append, hfaces]
    | some faces =>
      have hcustom : r.isCustom := by simp [Record.isCustom, hr]
      refine ⟨faces :: shown, ?_, ?_⟩
      · rw [List.filter_cons_of_pos hcustom, List.map_cons, hshown, hr, List.map_cons]
      · rw [hcons, hr, Option.getD_some, hfaces, List.flatten_cons]

theorem map_pool_eq {requests : List PoolRequest} {ps : List Pool} {records : List Record}
    (h : pools requests = .ok ps)
    (hrecords : List.Forall₂ (fun r record => r.toPool = .ok record.pool) requests records) :
    records.map Record.pool = ps := by
  have hmap : List.Forall₂ (fun r p => r.toPool = .ok p) requests (records.map Record.pool) :=
    List.forall₂_map_right_iff.2 hrecords
  rw [← mapM_eq_ok_iff] at hmap
  have hps := mapM_eq_ok_iff.2 (pools_eq_ok_iff.1 h).2
  rw [hmap] at hps
  exact Except.ok.inj hps

theorem filter_isCustom {records : List Record} (h : ∀ r ∈ records, r.AgreesOnFaces) :
    records.filter Record.isCustom = records.filter (·.pool.isCustom) ∧
      (records.filter fun r => !r.isCustom) = records.filter fun r => !r.pool.isCustom :=
  ⟨List.filter_congr fun r hr => (h r hr).isCustom,
    List.filter_congr fun r hr => congrArg not (h r hr).isCustom⟩

theorem exists_run_rollFace {faces : List String} (hne : faces ≠ []) (float : StateM σ Float)
    (s : σ) (taken : Nat) : ∃ face ∈ faces, ∃ s',
      (rollFace faces (Draw.counted float)).run (s, taken) =
        (.ok face, (s', taken + Draw.perDie (.ofNat faces.length))) := by
  have hcount : faces.length ≠ 0 := List.length_pos_iff.2 hne |>.ne'
  have hempty : ¬ faces.isEmpty := by simpa using hne
  let die : StateM (σ × Nat) Int64 := Draw.die (Draw.counted float) (.ofNat faces.length)
  obtain ⟨face, hface, hshows⟩ :=
    exists_faceAt? (Draw.yields_place (Draw.counted float) hcount (s, taken))
  obtain ⟨hlo, hhi⟩ := Draw.takes_die float (.ofNat faces.length) (s, taken)
  have hstate : (die.run (s, taken)).2 =
      ((die.run (s, taken)).2.1, taken + Draw.perDie (.ofNat faces.length)) :=
    Prod.ext rfl (Nat.le_antisymm hhi hlo)
  refine ⟨face, hshows.mem, (die.run (s, taken)).2.1, ?_⟩
  rw [rollFace, if_neg hempty, ← hstate]
  refine run_bind_eq_ok_iff.2 ⟨(die.run (s, taken)).1, _, run_liftM_eq_ok_iff.2 rfl, ?_⟩
  rw [hface]
  rfl

theorem perDie_of_length_lt {faces : List String} (hne : faces ≠ [])
    (hlength : faces.length < UInt32.size) : Draw.perDie (.ofNat faces.length) = 1 := by
  have hcount : faces.length ≠ 0 := List.length_pos_iff.2 hne |>.ne'
  rw [Draw.perDie, if_neg]
  intro hzero
  have htoNat := UInt32.toNat_ofNat_of_lt' hlength
  rw [hzero, UInt32.toNat_zero] at htoNat
  omega

theorem ofRequests_shows_faces (float : StateM σ Float) (s : σ) :
    (∀ spec p faces, Pool.ofSpec spec = .ok p → p.faces = some faces →
      ∃ r s', (p.roll float).run s = (.ok r, s') ∧ r.pool = p ∧ r.ShowsFaces faces p.quantity) ∧
    (∀ requests ps, pools requests = .ok ps → ∃ (o : Outcome) (s' : σ) (shown : List (List String)),
      (ofRequests requests float).run s = (.ok o, s') ∧ o.records.map Record.pool = ps ∧
        (∀ r ∈ o.records, ∀ faces, r.pool.faces = some faces →
          r.ShowsFaces faces r.pool.quantity) ∧
        (o.records.filter (·.pool.isCustom)).map Record.faces = shown.map some ∧
        o.faces = shown.flatten ∧
        o.total = Bounded.sum
          ((o.records.filter fun r => !r.pool.isCustom).map Record.appliedTotal)) ∧
    ∀ faces : List String, faces ≠ [] → ∀ taken, ∃ face ∈ faces, ∃ s' draws,
      (rollFace faces (Draw.counted float)).run (s, taken) = (.ok face, (s', taken + draws)) ∧
        (faces.length < UInt32.size → draws = 1) := by
  refine ⟨?_, ?_, ?_⟩
  · intro spec p faces h hfaces
    obtain ⟨r, s', hroll, hpool⟩ := Pool.exists_run_roll h float s
    exact ⟨r, s', hroll, hpool, Pool.showsFaces_of_roll h hfaces hroll⟩
  · intro requests ps h
    obtain ⟨records, s', hrun, hpools, hagrees⟩ :=
      exists_run_ofRequests_of_roll h float
        (fun _ _ hp _ _ _ hroll => Pool.agrees_of_roll hp hroll) s
    obtain ⟨hcustom, hnumbered⟩ := filter_isCustom hagrees
    obtain ⟨shown, hshown, hfaces⟩ := exists_faces_ofRecords records
    have htotal := total_ofRecords records
    rw [hcustom] at hshown
    rw [hnumbered] at htotal
    exact ⟨.ofRecords records, s', shown, hrun, map_pool_eq h hpools,
      fun r hr => (hagrees r hr).shows_faces, hshown, hfaces, htotal⟩
  · intro faces hne taken
    obtain ⟨face, hface, s', hrun⟩ := exists_run_rollFace hne float s taken
    exact ⟨face, hface, s', _, hrun, perDie_of_length_lt hne⟩

theorem ofRequests_shows_faces_mixed :
    ∃ (requests : List PoolRequest) (ps : List Pool) (float : StateM Nat Float) (o : Outcome)
      (s' : Nat), pools requests = .ok ps ∧ (ofRequests requests float).run 0 = (.ok o, s') ∧
        o.records.map Record.pool = ps ∧ o.faces = ["C", "A", "X"] ∧ o.total = 4 ∧
        (∃ r ∈ o.records, r.ShowsFaces ["A", "B", "C"] 2) ∧
        ∃ face ∈ ["heads", "tails"], ∃ s',
          (rollFace ["heads", "tails"] (Draw.counted float)).run (0, 0) = (.ok face, (s', 1)) := by
  let letters : PoolSpec := { sides := .faces ["A", "B", "C"], quantity := 2 }
  let cross : PoolSpec := { sides := .faces ["X"], sign := .subtract }
  let requests : List PoolRequest := [.spec letters, .sides 6, .spec cross]
  let ps : List Pool :=
    [Pool.ofValid letters, Pool.ofValid { sides := .numbered 6 }, Pool.ofValid cross]
  let float : StateM Nat Float := Draw.cycle #[0.9, 0.0, 0.5] 0
  have hps : pools requests = .ok ps := rfl
  have hshown : ((ofRequests requests float).run 0).1.map (fun o => (o.faces, o.total)) =
      .ok (["C", "A", "X"], 4) := by decide +kernel
  obtain ⟨_, hrecords, hsingle⟩ := ofRequests_shows_faces float 0
  obtain ⟨o, s', shown, hrun, hpools, hall, _⟩ := hrecords requests ps hps
  obtain ⟨face, hface, t, draws, hroll, hdraws⟩ := hsingle ["heads", "tails"] (by decide) 0
  rw [hdraws (by decide)] at hroll
  rw [hrun] at hshown
  obtain ⟨hfaces, htotal⟩ := Prod.mk.inj (Except.ok.inj hshown)
  have hmem : Pool.ofValid letters ∈ o.records.map Record.pool := by
    rw [hpools]
    exact List.mem_cons_self
  obtain ⟨r, hr, hpool⟩ := List.mem_map.1 hmem
  have hshows := hall r hr ["A", "B", "C"] (by rw [hpool]; rfl)
  rw [hpool] at hshows
  exact ⟨requests, ps, float, o, s', hps, hrun, hpools, hfaces, htotal, ⟨r, hr, hshows⟩, face,
    hface, t, hroll⟩

end Outcome

end DicePool
