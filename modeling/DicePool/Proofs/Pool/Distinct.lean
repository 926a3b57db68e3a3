import DicePool.Proofs.Pool.Normal

/-!
This module contains the modifiers without the repetitions in their lists, which notation cannot
say. A pool that has passed the check passes it without them, too.
-/

namespace DicePool

theorem contains_eraseDups (values : List Int64) (v : Int64) :
    values.eraseDups.contains v = values.contains v := by
  rw [Bool.eq_iff_iff, List.contains_iff_mem, List.contains_iff_mem, List.mem_eraseDups]

theorem isEmpty_eraseDups (values : List Int64) : values.eraseDups.isEmpty = values.isEmpty := by
  cases values with
  | nil => rfl
  | cons v vs => simp [List.eraseDups_cons]

namespace Condition

def distinct (c : Condition) : Condition :=
  { c with exact := c.exact.eraseDups }

@[simp]
theorem holds_distinct (c : Condition) (value : Int64) :
    c.distinct.holds value = c.holds value := by
  rw [holds, holds, distinct, contains_eraseDups]

@[simp]
theorem isEmpty_distinct (c : Condition) : c.distinct.isEmpty = c.isEmpty := by
  rw [isEmpty, isEmpty, distinct, isEmpty_eraseDups]

end Condition

def Drop.distinct (d : Drop) : Drop :=
  { d with filter := d.filter.distinct }

@[simp]
theorem Drop.isEmpty_distinct (d : Drop) : d.distinct.isEmpty = d.isEmpty := by
  rw [isEmpty, isEmpty, distinct, Condition.isEmpty_distinct]

def Reroll.distinct (r : Reroll) : Reroll :=
  { r with trigger := r.trigger.distinct }

namespace Unique

def distinct (u : Unique) : Unique where
  notUnique := u.notUnique.eraseDups

@[simp]
theorem isExempt_distinct (u : Unique) (value : Int64) :
    u.distinct.isExempt value = u.isExempt value :=
  contains_eraseDups _ _

@[simp]
theorem isSatisfiable_distinct (u : Unique) (quantity sides : UInt32) :
    u.distinct.isSatisfiable quantity sides = u.isSatisfiable quantity sides := by
  rw [isSatisfiable, isSatisfiable, distinct, Bool.eq_iff_iff]
  simp only [Bool.or_eq_true, List.any_eq_true, List.mem_eraseDups]

end Unique

namespace ModifierSet

def distinct (m : ModifierSet) : ModifierSet :=
  { m with
    drop := m.drop.map Drop.distinct
    reroll := m.reroll.map Reroll.distinct
    unique := m.unique.map Unique.distinct }

variable {m : ModifierSet}

theorem isFilled_distinct (h : m.IsFilled) : m.distinct.IsFilled := by
  refine ⟨h.cap, ?_, h.keep, h.replace, ?_⟩
  · intro d hd
    obtain ⟨d, hdrop, rfl⟩ := Option.map_eq_some_iff.1 hd
    rw [Drop.isEmpty_distinct]
    exact h.drop d hdrop
  · intro r hr
    obtain ⟨r, hreroll, rfl⟩ := Option.map_eq_some_iff.1 hr
    rw [Reroll.distinct, Condition.isEmpty_distinct]
    exact h.reroll r hreroll

theorem isNormal_distinct (h : m.IsNormal) : m.distinct.IsNormal :=
  ⟨h.keep, h.replace⟩

end ModifierSet

namespace PoolSpec

def distinct (spec : PoolSpec) : PoolSpec :=
  { spec with modifiers := spec.modifiers.distinct }

theorem isValid_distinct {spec : PoolSpec} (h : spec.IsValid) : spec.distinct.IsValid := by
  refine ⟨h.numbered, ?_, h.quantity, ModifierSet.isFilled_distinct h.filled, h.cap, ?_⟩
  · intro labels hsides
    obtain ⟨hne, hm⟩ := h.faces labels hsides
    rw [distinct, hm]
    exact ⟨hne, rfl⟩
  · intro n u hsides hu
    obtain ⟨u, hunique, rfl⟩ := Option.map_eq_some_iff.1 hu
    rw [distinct, Unique.isSatisfiable_distinct]
    exact h.unique n u hsides hunique

end PoolSpec

end DicePool
