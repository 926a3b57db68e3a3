import DicePool.Proofs.Notation.Token
import DicePool.Proofs.Run

/-!
This module contains the meaning of words: the modifiers that the words of a text ask for together.
The main statement is `mergeAll_words`: merging their tokens one after the other comes to that.
-/

namespace DicePool.Notation

namespace Grammar

section Terms

def lower? : Term → Option Int64
  | .greaterThan bound => some bound
  | _ => none

def upper? : Term → Option Int64
  | .lessThan bound => some bound
  | _ => none

def value? : Term → Option Int64
  | .exact value => some value
  | _ => none

def condition (terms : List Term) : Condition where
  greaterThan := (terms.filterMap lower?).getLast?
  lessThan := (terms.filterMap upper?).getLast?
  exact := (terms.filterMap value?).eraseDups

end Terms

namespace Word

@[simp]
def entries : Word → List Entry
  | .cap _ => [.cap]
  | .drop _ | .highest _ | .lowest _ => [.drop]
  | .reroll _ _ => [.reroll]
  | .replace _ => [.replace]
  | .unique _ => [.unique]
  | .keepHighest _ | .keepLowest _ => [.keep]
  | .plus _ => [.plus]
  | .minus _ => [.minus]
  | .burst b =>
    (if b.explode then [.explode] else []) ++ (if b.compound.isSome then [.compound] else []) ++
      if b.penetrate.isSome then [.penetrate] else []

@[simp]
def bounds : Word → List Term
  | .cap bounds => bounds
  | _ => []

@[simp]
def filters : Word → List Term
  | .drop terms => terms
  | _ => []

@[simp]
def triggers : Word → List Term
  | .reroll terms _ => terms
  | _ => []

@[simp]
def rules : Word → List Replacement
  | .replace rules => rules
  | _ => []

@[simp]
def exempt : Word → List Int64
  | .unique exempt => exempt
  | _ => []

@[simp]
def rerolls? : Word → Option UInt32
  | .reroll _ max => max
  | _ => none

@[simp]
def highest? : Word → Option UInt32
  | .highest n => some (n.getD 1)
  | _ => none

@[simp]
def lowest? : Word → Option UInt32
  | .lowest n => some (n.getD 1)
  | _ => none

@[simp]
def keepHighest? : Word → Option UInt32
  | .keepHighest n => some (n.getD 1)
  | _ => none

@[simp]
def keepLowest? : Word → Option UInt32
  | .keepLowest n => some (n.getD 1)
  | _ => none

@[simp]
def compound? : Word → Option Depth
  | .burst b => b.compound
  | _ => none

@[simp]
def penetrate? : Word → Option Depth
  | .burst b => b.penetrate
  | _ => none

@[simp]
def plus? : Word → Option Int64
  | .plus n => some n
  | _ => none

@[simp]
def minus? : Word → Option Int64
  | .minus n => some n
  | _ => none

end Word

def mentions (ws : List Word) (e : Entry) : Bool :=
  ws.any fun w => w.entries.contains e

def given (ws : List Word) (e : Entry) (a : α) : Option α :=
  if mentions ws e then some a else none

def last? (f : Word → Option α) (ws : List Word) : Option α :=
  (ws.filterMap f).getLast?

def total (f : Word → Option Int64) (ws : List Word) : Int :=
  (ws.filterMap f).foldl (fun sum n => sum + n.toInt) 0

def Fits (n : Int) : Prop :=
  Int64.minValue.toInt ≤ n ∧ n ≤ Int64.maxValue.toInt

structure SumsFit (ws : List Word) : Prop where
  plus : Fits (total Word.plus? ws)
  minus : Fits (total Word.minus? ws)

/--
The modifiers that words ask for. Of words that set the same the last one counts, conditions and
lists are put together, and `plus` and `minus` are summed.
-/
def denote (ws : List Word) : ModifierSet where
  cap := given ws .cap (condition (ws.flatMap Word.bounds))
  drop := given ws .drop
    { highest := last? Word.highest? ws
      lowest := last? Word.lowest? ws
      filter := condition (ws.flatMap Word.filters) }
  keep := given ws .keep
    { highest := last? Word.keepHighest? ws
      lowest := last? Word.keepLowest? ws }
  replace := given ws .replace (ws.flatMap Word.rules)
  reroll := given ws .reroll
    { trigger := condition (ws.flatMap Word.triggers)
      max := last? Word.rerolls? ws }
  explode := mentions ws .explode
  compound := last? Word.compound? ws
  penetrate := last? Word.penetrate? ws
  unique := given ws .unique { notUnique := (ws.flatMap Word.exempt).eraseDups }
  plus := given ws .plus (.ofInt (total Word.plus? ws))
  minus := given ws .minus (.ofInt (total Word.minus? ws))

end Grammar

open Grammar

/-! ### Conditions -/

theorem eraseDups_concat (xs : List Int64) (y : Int64) :
    (xs ++ [y]).eraseDups = if y ∈ xs then xs.eraseDups else xs.eraseDups ++ [y] := by
  rw [List.eraseDups_append]
  split <;> simp [List.removeAll, List.eraseDups_cons, *]

theorem nodup_eraseDups (xs : List Int64) : xs.eraseDups.Nodup := by
  induction xs using List.reverseRecOn with
  | nil => simp
  | append_singleton xs x ih =>
    rw [eraseDups_concat]
    split
    · exact ih
    · next h =>
      apply List.nodup_append.2
      refine ⟨ih, by simp, ?_⟩
      rintro y hy z hz rfl
      rw [List.mem_singleton] at hz
      rw [List.mem_eraseDups, hz] at hy
      exact h hy

theorem eraseDups_of_nodup {xs : List Int64} (h : xs.Nodup) : xs.eraseDups = xs := by
  induction xs using List.reverseRecOn with
  | nil => rfl
  | append_singleton xs x ih =>
    obtain ⟨hxs, _, hx⟩ := List.nodup_append.1 h
    rw [eraseDups_concat, if_neg, ih hxs]
    intro hmem
    exact hx x hmem x (by simp) rfl

theorem addNew_singleton (xs : List Int64) (y : Int64) :
    Condition.addNew xs [y] = if y ∈ xs then xs else xs ++ [y] := by
  simp [Condition.addNew]

theorem addNew_eraseDups (xs ys : List Int64) :
    Condition.addNew xs.eraseDups ys = (xs ++ ys).eraseDups := by
  induction ys using List.reverseRecOn with
  | nil => simp
  | append_singleton ys y ih =>
    rw [Condition.addNew_append, ih, addNew_singleton, ← List.append_assoc, eraseDups_concat]
    simp only [List.mem_eraseDups]

theorem addNew_eraseDups_eraseDups (xs ys : List Int64) :
    Condition.addNew xs.eraseDups ys.eraseDups = (xs ++ ys).eraseDups := by
  induction ys using List.reverseRecOn with
  | nil => simp
  | append_singleton ys y ih =>
    rw [eraseDups_concat, ← List.append_assoc, eraseDups_concat]
    split
    · next h => rw [ih, if_pos (List.mem_append_right _ h)]
    · next h =>
      rw [Condition.addNew_append, ih, addNew_singleton]
      simp only [List.mem_eraseDups]

@[simp]
theorem condition_nil : condition [] = {} := rfl

theorem condition_append (xs ys : List Term) :
    condition (xs ++ ys) = (condition xs).merge (condition ys) := by
  simp [condition, Condition.merge, addNew_eraseDups_eraseDups, List.getLast?_append]

theorem term_condition (ts : List Term) : Term.condition ts = condition ts := by
  induction ts using List.reverseRecOn with
  | nil => rfl
  | append_singleton ts t ih =>
    -- Terms are added one after the other at the end, so the induction is from the right.
    rw [Term.condition_append, ih, condition_append]
    cases t <;>
      simp [Term.addTo, condition, Condition.merge, lower?, upper?, value?, Condition.oneOf,
        List.filterMap_cons, List.eraseDups_cons]

/-! ### Words -/

section Concat

variable (ws : List Word) (w : Word)

@[simp]
theorem mentions_concat (e : Entry) :
    mentions (ws ++ [w]) e = (mentions ws e || w.entries.contains e) := by
  simp [mentions]

@[simp]
theorem last?_concat (f : Word → Option α) : last? f (ws ++ [w]) = (f w).or (last? f ws) := by
  cases h : f w <;> simp [last?, h]

@[simp]
theorem total_concat (f : Word → Option Int64) :
    total f (ws ++ [w]) = total f ws + ((f w).getD 0).toInt := by
  cases h : f w <;> simp [total, h]

theorem mentions_eq_false_iff (e : Entry) :
    mentions ws e = false ↔ ∀ w ∈ ws, e ∉ w.entries := by
  simp [mentions]

end Concat

theorem getD_given {ws : List Word} {e : Entry} {a d : α}
    (h : (∀ w ∈ ws, e ∉ w.entries) → a = d) : (given ws e a).getD d = a := by
  unfold given
  split
  · rfl
  · next hm =>
    rw [Bool.not_eq_true, mentions_eq_false_iff] at hm
    exact (h hm).symm

theorem mergeAll_append (m : ModifierSet) (xs ys : List Token) :
    mergeAll m (xs ++ ys) = mergeAll m xs >>= fun m => mergeAll m ys := by
  simp [mergeAll]

theorem mergeAll_cons (m : ModifierSet) (t : Token) (ts : List Token) :
    mergeAll m (t :: ts) = mergeAll m [t] >>= fun m => mergeAll m ts :=
  mergeAll_append m [t] ts

theorem flatMap_eq_nil_of_entries {f : Word → List α} {e : Entry} {ws : List Word}
    (hf : ∀ w, e ∉ w.entries → f w = []) (h : ∀ w ∈ ws, e ∉ w.entries) : ws.flatMap f = [] := by
  rw [List.flatMap_eq_nil_iff]
  intro w hw
  exact hf w (h w hw)

theorem filterMap_eq_nil_of_entries {f : Word → Option α} {e : Entry} {ws : List Word}
    (hf : ∀ w, e ∉ w.entries → f w = none) (h : ∀ w ∈ ws, e ∉ w.entries) :
    ws.filterMap f = [] := by
  rw [List.filterMap_eq_nil_iff]
  intro w hw
  exact hf w (h w hw)

theorem last?_eq_none_of_entries {f : Word → Option α} {e : Entry} {ws : List Word}
    (hf : ∀ w, e ∉ w.entries → f w = none) (h : ∀ w ∈ ws, e ∉ w.entries) : last? f ws = none := by
  rw [last?, filterMap_eq_nil_of_entries hf h]
  rfl

section Settings

variable (ws : List Word)

theorem getD_cap_denote : (denote ws).cap.getD {} = condition (ws.flatMap Word.bounds) := by
  apply getD_given
  intro h
  rw [flatMap_eq_nil_of_entries _ h, condition_nil]
  intro w hw
  cases w <;> simp_all [Word.entries, Word.bounds]

theorem getD_drop_denote :
    (denote ws).drop.getD {} =
      { highest := last? Word.highest? ws
        lowest := last? Word.lowest? ws
        filter := condition (ws.flatMap Word.filters) } := by
  apply getD_given
  intro h
  rw [flatMap_eq_nil_of_entries _ h, last?_eq_none_of_entries _ h, last?_eq_none_of_entries _ h,
    condition_nil]
  all_goals
    intro w hw
    cases w <;> simp_all [Word.entries, Word.highest?, Word.lowest?, Word.filters]

theorem getD_keep_denote :
    (denote ws).keep.getD {} =
      { highest := last? Word.keepHighest? ws
        lowest := last? Word.keepLowest? ws } := by
  apply getD_given
  intro h
  rw [last?_eq_none_of_entries _ h, last?_eq_none_of_entries _ h]
  all_goals
    intro w hw
    cases w <;> simp_all [Word.entries, Word.keepHighest?, Word.keepLowest?]

theorem getD_replace_denote : (denote ws).replace.getD [] = ws.flatMap Word.rules := by
  apply getD_given
  intro h
  rw [flatMap_eq_nil_of_entries _ h]
  intro w hw
  cases w <;> simp_all [Word.entries, Word.rules]

theorem getD_reroll_denote :
    (denote ws).reroll.getD {} =
      { trigger := condition (ws.flatMap Word.triggers)
        max := last? Word.rerolls? ws } := by
  apply getD_given
  intro h
  rw [flatMap_eq_nil_of_entries _ h, last?_eq_none_of_entries _ h, condition_nil]
  all_goals
    intro w hw
    cases w <;> simp_all [Word.entries, Word.triggers, Word.rerolls?]

theorem getD_unique_denote :
    (denote ws).unique.getD {} = { notUnique := (ws.flatMap Word.exempt).eraseDups } := by
  apply getD_given
  intro h
  rw [flatMap_eq_nil_of_entries _ h, List.eraseDups_nil]
  intro w hw
  cases w <;> simp_all [Word.entries, Word.exempt]

end Settings

theorem mergeAll_modifier (m : ModifierSet) (x : Modifier) :
    mergeAll m [.modifier x] = m.merge x := by
  simp [mergeAll]

theorem mergeAll_keep (m : ModifierSet) (k : Keep) :
    mergeAll m [.keep k] = .ok (m.mergeKeep k) := rfl

theorem mergeAll_burst (m : ModifierSet) (b : Burst) :
    mergeAll m (b.modifiers.map .modifier) =
      .ok { m with
        explode := m.explode || b.explode
        compound := b.compound.or m.compound
        penetrate := b.penetrate.or m.penetrate } := by
  obtain ⟨e, c, p⟩ := b
  cases e <;> cases c <;> cases p <;> simp [Burst.modifiers, mergeAll, ModifierSet.merge]

theorem mergeAll_tokens {ws : List Word} {w : Word} (hp : w.plus? = none)
    (hm : w.minus? = none) :
    mergeAll (denote ws) w.tokens = .ok (denote (ws ++ [w])) := by
  cases w with
  | cap bounds =>
    rw [Word.tokens, mergeAll_modifier, ModifierSet.merge, getD_cap_denote, term_condition]
    simp [denote, given, condition_append, pure, Except.pure]
  | drop terms =>
    rw [Word.tokens, mergeAll_modifier, ModifierSet.merge, getD_drop_denote, term_condition]
    simp [denote, given, condition_append, pure, Except.pure, Drop.merge]
  | reroll terms max =>
    rw [Word.tokens, mergeAll_modifier, ModifierSet.merge, getD_reroll_denote, term_condition]
    simp [denote, given, condition_append, pure, Except.pure, Reroll.merge]
  | replace rules =>
    rw [Word.tokens, mergeAll_modifier, ModifierSet.merge, getD_replace_denote]
    simp [denote, given, pure, Except.pure]
  | unique exempt =>
    rw [Word.tokens, mergeAll_modifier, ModifierSet.merge, getD_unique_denote]
    simp [denote, given, pure, Except.pure, Unique.merge, addNew_eraseDups]
  | highest n =>
    rw [Word.tokens, mergeAll_modifier, ModifierSet.merge, getD_drop_denote]
    simp [denote, given, pure, Except.pure, Drop.merge, Condition.merge]
  | lowest n =>
    rw [Word.tokens, mergeAll_modifier, ModifierSet.merge, getD_drop_denote]
    simp [denote, given, pure, Except.pure, Drop.merge, Condition.merge]
  | keepHighest n =>
    rw [Word.tokens, mergeAll_keep, ModifierSet.mergeKeep, getD_keep_denote]
    simp [denote, given, Keep.merge]
  | keepLowest n =>
    rw [Word.tokens, mergeAll_keep, ModifierSet.mergeKeep, getD_keep_denote]
    simp [denote, given, Keep.merge]
  | plus n => simp at hp
  | minus n => simp at hm
  | burst b =>
    rw [Word.tokens, mergeAll_burst]
    simp [denote, given]

/-! ### Sums -/

theorem addTerm_eq_ok_iff {e : Entry} {sum : Option Int64} {value w : Int64} :
    ModifierSet.addTerm e sum value = .ok w ↔ (sum.getD 0).toInt + value.toInt = w.toInt := by
  rw [← Bounded.int64?_eq_some_iff]
  unfold ModifierSet.addTerm
  cases Bounded.int64? ((sum.getD 0).toInt + value.toInt) with
  | none => exact iff_of_false (by rintro ⟨⟩) (by rintro ⟨⟩)
  | some w' => simp [pure, Except.pure]

theorem fits_iff {n : Int} : Fits n ↔ (Int64.ofInt n).toInt = n := by
  have hmin : Int64.minValue.toInt = -2 ^ 63 := rfl
  have hmax : Int64.maxValue.toInt = 2 ^ 63 - 1 := rfl
  constructor
  · rintro ⟨h₁, h₂⟩
    rw [Int64.toInt_ofInt_of_le] <;> omega
  · intro h
    rw [← h]
    exact ⟨Int64.minValue_le_toInt _, Int64.toInt_le _⟩

theorem addTerm_total_bind_eq_ok_iff {f : Word → Option Int64} {e e' : Entry} {ws : List Word}
    (hf : ∀ w, e ∉ w.entries → f w = none) (h : Fits (total f ws)) {n : Int64}
    {set : Int64 → ModifierSet} {m : ModifierSet} :
    (ModifierSet.addTerm e' (given ws e (Int64.ofInt (total f ws))) n >>= fun s => pure (set s)) =
        .ok m ↔
      Fits (total f ws + n.toInt) ∧ m = set (.ofInt (total f ws + n.toInt)) := by
  -- Before the first word about the entry there is no sum, which counts as 0.
  have hsum : ((given ws e (Int64.ofInt (total f ws))).getD 0).toInt = total f ws := by
    rw [getD_given, fits_iff.1 h]
    intro he
    rw [total, filterMap_eq_nil_of_entries hf he]
    rfl
  rw [bind_eq_ok_iff, fits_iff]
  constructor
  · rintro ⟨s, hs, hm⟩
    rw [addTerm_eq_ok_iff, hsum] at hs
    rw [hs, Int64.ofInt_toInt]
    exact ⟨rfl, (Except.ok.inj hm).symm⟩
  · rintro ⟨hs, rfl⟩
    refine ⟨_, ?_, rfl⟩
    rw [addTerm_eq_ok_iff, hsum]
    exact hs.symm

namespace Grammar

def Word.IsNonneg : Word → Prop
  | .plus n => 0 ≤ n.toInt
  | .minus n => 0 ≤ n.toInt
  | _ => True

theorem Natural.nonneg {s : List Char} {n : Int64} (h : Natural s n) : 0 ≤ n.toInt := by
  cases h
  omega

theorem Spells.isNonneg {s : List Char} {w : Word} (h : Spells s w) : w.IsNonneg := by
  cases h with
  | plus hs => exact hs.nonneg
  | minus hs => exact hs.nonneg
  | _ => trivial

theorem isNonneg_of_forall₂ {texts : List (List Char)} {ws : List Word}
    (h : List.Forall₂ Spells texts ws) : ∀ w ∈ ws, w.IsNonneg := by
  induction h with
  | nil => simp
  | cons hu _ ih =>
    rw [List.forall_mem_cons]
    exact ⟨hu.isNonneg, ih⟩

theorem Word.IsNonneg.plus? {w : Word} (h : w.IsNonneg) : 0 ≤ (w.plus?.getD 0).toInt := by
  cases w <;> simp_all [IsNonneg]

theorem Word.IsNonneg.minus? {w : Word} (h : w.IsNonneg) : 0 ≤ (w.minus?.getD 0).toInt := by
  cases w <;> simp_all [IsNonneg]

end Grammar

theorem total_nonneg {f : Word → Option Int64} {ws : List Word}
    (h : ∀ w ∈ ws, 0 ≤ ((f w).getD 0).toInt) : 0 ≤ total f ws := by
  induction ws using List.reverseRecOn with
  | nil => simp [total]
  | append_singleton ws w ih =>
    rw [List.forall_mem_append, List.forall_mem_singleton] at h
    have := ih h.1
    rw [total_concat]
    omega

theorem Grammar.Fits.of_le {m n : Int} (hn : Fits n) (h₀ : 0 ≤ m) (h : m ≤ n) : Fits m := by
  have hmin : Int64.minValue.toInt = -2 ^ 63 := rfl
  exact ⟨by omega, Int.le_trans h hn.2⟩

theorem sumsFit_of_concat {ws : List Word} {w : Word} (h : ∀ v ∈ ws ++ [w], v.IsNonneg)
    (hf : SumsFit (ws ++ [w])) : SumsFit ws := by
  rw [List.forall_mem_append, List.forall_mem_singleton] at h
  obtain ⟨hp, hm⟩ := hf
  rw [total_concat] at hp hm
  -- No summand is negative, so that a sum that fits does so from its first summand on.
  have hwp := h.2.plus?
  have hwm := h.2.minus?
  constructor
  · exact hp.of_le (total_nonneg fun v hv => (h.1 v hv).plus?) (by omega)
  · exact hm.of_le (total_nonneg fun v hv => (h.1 v hv).minus?) (by omega)

theorem denote_concat_plus (ws : List Word) (n : Int64) :
    denote (ws ++ [.plus n]) =
      { denote ws with plus := some (.ofInt (total Word.plus? ws + n.toInt)) } := by
  simp [denote, given]

theorem denote_concat_minus (ws : List Word) (n : Int64) :
    denote (ws ++ [.minus n]) =
      { denote ws with minus := some (.ofInt (total Word.minus? ws + n.toInt)) } := by
  simp [denote, given]

theorem mergeAll_plus_iff {ws : List Word} (h : SumsFit ws) {n : Int64} {m : ModifierSet} :
    mergeAll (denote ws) (Word.plus n).tokens = .ok m ↔
      SumsFit (ws ++ [.plus n]) ∧ m = denote (ws ++ [.plus n]) := by
  have hentries : ∀ w : Word, Entry.plus ∉ w.entries → w.plus? = none := by
    intro w hw
    cases w <;> simp_all
  have hfit : SumsFit (ws ++ [.plus n]) ↔ Fits (total Word.plus? ws + n.toInt) := by
    constructor
    · intro h'
      simpa using h'.plus
    · intro hp
      exact ⟨by simpa using hp, by simpa using h.minus⟩
  rw [Word.tokens, mergeAll_modifier, ModifierSet.merge, hfit, denote_concat_plus]
  exact addTerm_total_bind_eq_ok_iff hentries h.plus

theorem mergeAll_minus_iff {ws : List Word} (h : SumsFit ws) {n : Int64} {m : ModifierSet} :
    mergeAll (denote ws) (Word.minus n).tokens = .ok m ↔
      SumsFit (ws ++ [.minus n]) ∧ m = denote (ws ++ [.minus n]) := by
  have hentries : ∀ w : Word, Entry.minus ∉ w.entries → w.minus? = none := by
    intro w hw
    cases w <;> simp_all
  have hfit : SumsFit (ws ++ [.minus n]) ↔ Fits (total Word.minus? ws + n.toInt) := by
    constructor
    · intro h'
      simpa using h'.minus
    · intro hp
      exact ⟨by simpa using h.plus, by simpa using hp⟩
  rw [Word.tokens, mergeAll_modifier, ModifierSet.merge, hfit, denote_concat_minus]
  exact addTerm_total_bind_eq_ok_iff hentries h.minus

theorem mergeAll_tokens_iff {ws : List Word} (h : SumsFit ws) {w : Word} {m : ModifierSet} :
    mergeAll (denote ws) w.tokens = .ok m ↔ SumsFit (ws ++ [w]) ∧ m = denote (ws ++ [w]) := by
  by_cases hw : w.plus? = none ∧ w.minus? = none
  · have hfit : SumsFit (ws ++ [w]) := by
      constructor
      · rw [total_concat, hw.1]
        simpa using h.plus
      · rw [total_concat, hw.2]
        simpa using h.minus
    rw [mergeAll_tokens hw.1 hw.2, Except.ok.injEq, eq_comm (a := m)]
    simp [hfit]
  · cases w with
    | plus n => exact mergeAll_plus_iff h
    | minus n => exact mergeAll_minus_iff h
    | _ => exact absurd ⟨rfl, rfl⟩ hw

theorem sumsFit_nil : SumsFit [] :=
  ⟨⟨by decide, by decide⟩, ⟨by decide, by decide⟩⟩

theorem mergeAll_words {ws : List Word} (h : ∀ w ∈ ws, w.IsNonneg) {m : ModifierSet} :
    mergeAll {} (ws.flatMap Word.tokens) = .ok m ↔ SumsFit ws ∧ m = denote ws := by
  induction ws using List.reverseRecOn generalizing m with
  | nil =>
    have hnil : mergeAll {} [] = .ok (denote []) := rfl
    rw [List.flatMap_nil, hnil, Except.ok.injEq, eq_comm (a := m)]
    simp [sumsFit_nil]
  | append_singleton ws w ih =>
    have ih := fun {m} => ih (List.forall_mem_append.1 h).1 (m := m)
    rw [List.flatMap_append, List.flatMap_singleton, mergeAll_append, bind_eq_ok_iff]
    constructor
    · rintro ⟨m', hm', hm⟩
      obtain ⟨hfit, rfl⟩ := ih.1 hm'
      exact (mergeAll_tokens_iff hfit).1 hm
    · intro hm
      -- The words before the last one have been merged: their sums are no larger.
      have hfit := sumsFit_of_concat h hm.1
      exact ⟨_, ih.2 ⟨hfit, rfl⟩, (mergeAll_tokens_iff hfit).2 hm⟩

end DicePool.Notation
