import DicePool.Proofs.Notation.Denotation
import DicePool.Proofs.Notation.Reader
import DicePool.Proofs.Pool.Distinct

/-!
This module contains the words that modifiers are written in. A set of modifiers in normal form is
written in words of the grammar, and merging the tokens of these words gives the set again, but for
the repetitions in its lists.
-/

namespace DicePool

open Notation Notation.Grammar

namespace Notation

variable {α : Type}

theorem count_count (n : UInt32) : Count (count n) n := by
  rw [Count, numeral_iff, count, Text.Decimal.value?_ofNat]

theorem integer_int (n : Int64) : Integer (int n) n := by
  rw [← signed?_eq_some_iff, signed?, int, Text.Decimal.signedValue?_ofInt, Option.bind_some,
    Bounded.int64?_toInt]

theorem natural_int {n : Int64} (h : 0 ≤ n.toInt) : Natural (int n) n := by
  obtain ⟨k, hk⟩ := Int.eq_ofNat_of_zero_le h
  refine .mk (k := k) ?_ hk
  rw [numeral_iff, int, hk]
  exact Text.Decimal.value?_ofNat k

theorem exists_of_listed {item : List Char → α → Prop} {parts : List (List Char)} {as : List α}
    (h : List.Forall₂ item parts as) (hne : as ≠ []) (letter : Char) :
    ∃ s, listed letter parts = letter :: s ∧ Listed item s as := by
  cases h with
  | nil => contradiction
  | cons ha has => exact ⟨_, rfl, _, List.cons_ne_nil _ _, rfl, .cons ha has⟩

def short (n : UInt32) : Option UInt32 :=
  if n = 1 then none else some n

theorem getD_short (n : UInt32) : (short n).getD 1 = n := by
  unfold short
  split
  · next h => exact h.symm
  · rfl

theorem exists_of_counted (letter : Char) (n : UInt32) :
    ∃ s, counted letter (some n) = letter :: s ∧ Optional Count s (short n) := by
  by_cases h : n = 1
  · rw [counted, short, if_pos h, if_pos h]
    exact ⟨[], rfl, .absent⟩
  · rw [counted, short, if_neg h, if_neg h]
    exact ⟨count n, rfl, .present (count_count n)⟩

def Leads (s : List Char) (ws : List Word) : Prop :=
  ∀ t vs, Words t vs → Words (s ++ t) (ws ++ vs)

theorem Leads.nil : Leads [] [] := by
  intro t vs ht
  exact ht

theorem Leads.append {s t : List Char} {ws vs : List Word} (hs : Leads s ws) (ht : Leads t vs) :
    Leads (s ++ t) (ws ++ vs) := by
  intro u us hu
  rw [List.append_assoc, List.append_assoc]
  exact hs _ _ (ht u us hu)

theorem leads_of_spells {c : Char} {s : List Char} {w : Word} (h : Spells (c :: s) w)
    (hc : c ≠ '!' ∧ ¬ Letter 'K' c) : Leads (c :: s) [w] := by
  intro t vs ht
  apply Words.cons h ht
  apply apart_cons hc.1
  intro _ hK
  exact absurd hK hc.2

theorem leads_elim {o : Option α} {f : α → List Char} {g : α → List Word}
    (h : ∀ a ∈ o, Leads (f a) (g a)) : Leads (o.elim [] f) (o.elim [] g) := by
  cases o with
  | none => exact Leads.nil
  | some a => exact h a rfl

/-! ### Conditions and replacements -/

def Term.spelling : Term → List Char
  | .exact value => int value
  | .greaterThan bound => '>' :: int bound
  | .lessThan bound => '<' :: int bound

theorem Term.comparison_spelling (t : Term) : Comparison t.spelling t := by
  cases t with
  | exact value => exact .exact (integer_int value)
  | greaterThan bound => exact .bound (.above (integer_int bound))
  | lessThan bound => exact .bound (.below (integer_int bound))

theorem rule_spelling (t : Term) (n : Int64) :
    Rule (t.spelling ++ '=' :: int n) { target := t.target, value := n } :=
  .mk t.comparison_spelling (integer_int n)

theorem forall₂_map_self {item : List Char → α → Prop} {f : α → List Char} {as : List α}
    (h : ∀ a ∈ as, item (f a) a) : List.Forall₂ item (as.map f) as := by
  rw [List.forall₂_map_left_iff, List.forall₂_same]
  exact h

end Notation

namespace Condition

def bounds (c : Condition) : List Term :=
  c.greaterThan.toList.map .greaterThan ++ c.lessThan.toList.map .lessThan

def comparisons (c : Condition) : List Term :=
  c.exact.map .exact ++ c.bounds

theorem terms_eq_map (c : Condition) : c.terms = c.comparisons.map Term.spelling := by
  simp [terms, comparisons, bounds, Term.spelling, Function.comp_def]

theorem comparisons_eq_nil_iff {c : Condition} : c.comparisons = [] ↔ c.isEmpty := by
  obtain ⟨gt, lt, exact⟩ := c
  cases gt <;> cases lt <;> simp [isEmpty, comparisons, bounds]

theorem comparisons_eq_bounds {c : Condition} (h : c.exact = []) : c.comparisons = c.bounds := by
  rw [comparisons, h, List.map_nil, List.nil_append]

theorem bound_of_mem_bounds {c : Condition} : ∀ t ∈ c.bounds, Bound t.spelling t := by
  intro t ht
  simp only [bounds, List.mem_append, List.mem_map] at ht
  obtain ⟨n, _, rfl⟩ | ⟨n, _, rfl⟩ := ht
  · exact .above (integer_int n)
  · exact .below (integer_int n)

theorem distinct_of_nodup {c : Condition} (h : c.exact.Nodup) : c.distinct = c := by
  rw [distinct, eraseDups_of_nodup h]

theorem distinct_distinct (c : Condition) : c.distinct.distinct = c.distinct :=
  distinct_of_nodup (nodup_eraseDups _)

theorem empty_merge (c : Condition) : ({} : Condition).merge c = c.distinct := by
  obtain ⟨gt, lt, exact⟩ := c
  have hexact : addNew [] exact = exact.eraseDups := by
    rw [← List.eraseDups_nil, addNew_eraseDups, List.nil_append]
  simp [merge, distinct, hexact]

theorem eq_empty {c : Condition} (h : c.isEmpty) : c = {} := by
  obtain ⟨gt, lt, exact⟩ := c
  simp_all [isEmpty]

theorem condition_comparisons (c : Condition) : Term.condition c.comparisons = c.distinct := by
  rw [term_condition]
  obtain ⟨gt, lt, exact⟩ := c
  cases gt <;> cases lt <;>
    simp [Grammar.condition, comparisons, bounds, Function.comp_def, lower?, upper?, value?,
      distinct, List.filterMap_cons]

end Condition

theorem Drop.empty_merge (d : Drop) : ({} : Drop).merge d = d.distinct := by
  rw [merge, Condition.empty_merge]
  simp [distinct]

theorem Reroll.empty_merge (r : Reroll) : ({} : Reroll).merge r = r.distinct := by
  rw [merge, Condition.empty_merge]
  simp [distinct]

theorem Unique.empty_merge (u : Unique) : ({} : Unique).merge u = u.distinct := by
  rw [merge, ← List.eraseDups_nil, addNew_eraseDups, List.nil_append, distinct]

theorem ModifierSet.addTerm_none (e : Entry) (value : Int64) :
    addTerm e none value = .ok value := by
  rw [addTerm_eq_ok_iff]
  simp

/-! ### Words of single entries -/

namespace Notation

theorem leads_counted {letter : Char} {w : Option UInt32 → Word}
    (h : ∀ s n, Optional Count s n → Spells (letter :: s) (w n))
    (hc : letter ≠ '!' ∧ ¬ Letter 'K' letter) (o : Option UInt32) :
    Leads (counted letter o) (o.elim [] fun n => [w (short n)]) := by
  cases o with
  | none => exact Leads.nil
  | some n =>
    obtain ⟨s, hs, hcount⟩ := exists_of_counted letter n
    rw [hs]
    exact leads_of_spells (h s _ hcount) hc

def capWords (c : Condition) : List Word :=
  [.cap c.bounds]

theorem leads_cap {c : Condition} (hne : ¬ c.isEmpty) (hexact : c.exact = []) :
    Leads (Modifier.cap c).spelling (capWords c) := by
  have hc : { c with exact := [] } = c := by rw [← hexact]
  have hbounds : c.bounds ≠ [] := by
    rwa [← Condition.comparisons_eq_bounds hexact, ne_eq, Condition.comparisons_eq_nil_iff]
  obtain ⟨s, hs, hlist⟩ :=
    exists_of_listed (forall₂_map_self Condition.bound_of_mem_bounds) hbounds 'C'
  rw [Modifier.spelling, hc, c.terms_eq_map, Condition.comparisons_eq_bounds hexact, hs]
  exact leads_of_spells (.cap (.inl rfl) hlist) (by decide)

theorem exists_of_listed_terms {c : Condition} (h : ¬ c.isEmpty) (letter : Char) :
    ∃ s, listed letter c.terms = letter :: s ∧ Listed Comparison s c.comparisons := by
  rw [c.terms_eq_map]
  apply exists_of_listed (forall₂_map_self fun t _ => t.comparison_spelling)
  rwa [ne_eq, Condition.comparisons_eq_nil_iff]

def dropWords (d : Drop) : List Word :=
  d.highest.elim [] (fun n => [.highest (short n)]) ++
    d.lowest.elim [] (fun n => [.lowest (short n)]) ++
    if d.filter.isEmpty then [] else [.drop d.filter.comparisons]

theorem leads_drop (d : Drop) : Leads (Modifier.drop d).spelling (dropWords d) := by
  have hhighest := leads_counted (fun _ _ => Spells.highest (.inl rfl)) (by decide) d.highest
  have hlowest := leads_counted (fun _ _ => Spells.lowest (.inl rfl)) (by decide) d.lowest
  have hfilter : Leads (listed 'D' d.filter.terms)
      (if d.filter.isEmpty then [] else [.drop d.filter.comparisons]) := by
    split
    · next h =>
      rw [d.filter.terms_eq_map, Condition.comparisons_eq_nil_iff.2 h]
      exact Leads.nil
    · next h =>
      obtain ⟨s, hs, hlist⟩ := exists_of_listed_terms h 'D'
      rw [hs]
      exact leads_of_spells (.drop (.inl rfl) hlist) (by decide)
  exact (hhighest.append hlowest).append hfilter

def rerollWords (r : Reroll) : List Word :=
  [.reroll r.trigger.comparisons r.max]

theorem leads_reroll {r : Reroll} (hne : ¬ r.trigger.isEmpty) :
    Leads (Modifier.reroll r).spelling (rerollWords r) := by
  have hmax : Optional Count (r.max.elim [] count) r.max := by
    cases r.max with
    | none => exact .absent
    | some n => exact .present (count_count n)
  obtain ⟨s, hs, hlist⟩ := exists_of_listed_terms hne 'R'
  rw [Modifier.spelling, Reroll.spelling, hs]
  exact leads_of_spells (.reroll (.inl rfl) hlist hmax) (by decide)

theorem exists_of_terms {r : Replacement} {t : Term} (h : r.target = t.target) :
    ∃ s, r.terms = [s] ∧ Rule s r := by
  obtain ⟨target, value⟩ := r
  cases h
  have hrule := rule_spelling t value
  cases t <;> exact ⟨_, rfl, hrule⟩

theorem forall₂_rule {rules : List Replacement} (h : ∀ r ∈ rules, ∃ t : Term, r.target = t.target) :
    List.Forall₂ Rule (rules.flatMap Replacement.terms) rules := by
  induction rules with
  | nil => exact .nil
  | cons r rules ih =>
    rw [List.forall_mem_cons] at h
    obtain ⟨t, ht⟩ := h.1
    obtain ⟨s, hs, hr⟩ := exists_of_terms ht
    rw [List.flatMap_cons, hs]
    exact .cons hr (ih h.2)

theorem leads_replace {rules : List Replacement} (hne : rules ≠ [])
    (h : ∀ r ∈ rules, ∃ t : Term, r.target = t.target) :
    Leads (Modifier.replace rules).spelling [.replace rules] := by
  obtain ⟨s, hs, hlist⟩ := exists_of_listed (forall₂_rule h) hne 'V'
  rw [Modifier.spelling, hs]
  exact leads_of_spells (.replace (.inl rfl) hlist) (by decide)

theorem leads_unique (u : Unique) :
    Leads (Modifier.unique u).spelling [.unique u.notUnique] := by
  obtain ⟨exempt⟩ := u
  cases exempt with
  | nil => exact leads_of_spells (.unique (.inl rfl)) (by decide)
  | cons v vs =>
    have hlist : Listed Integer (braces ((v :: vs).map int)) (v :: vs) :=
      ⟨_, by simp, rfl, forall₂_map_self fun n _ => integer_int n⟩
    exact leads_of_spells (.uniqueExcept (.inl rfl) hlist) (by decide)

theorem leads_plus {n : Int64} (h : 0 ≤ n.toInt) :
    Leads (Modifier.plus n).spelling [.plus n] :=
  leads_of_spells (.plus (natural_int h)) (by decide)

theorem leads_minus {n : Int64} (h : 0 ≤ n.toInt) :
    Leads (Modifier.minus n).spelling [.minus n] :=
  leads_of_spells (.minus (natural_int h)) (by decide)

/-! ### Words of exclamation marks -/

def draws (d : Depth) : Option UInt32 :=
  if d.isUnlimited then none else some d.draws

theorem depth_draws (d : Depth) : depth (draws d) = d := by
  obtain ⟨n⟩ := d
  unfold draws Depth.isUnlimited
  split
  · next h =>
    obtain rfl : n = 0 := eq_of_beq h
    rfl
  · rfl

theorem Depth.eq_unlimited {d : Depth} (h : d.isUnlimited) : d = .unlimited := by
  obtain ⟨n⟩ := d
  obtain rfl : n = 0 := eq_of_beq h
  rfl

theorem optional_spelling (d : Depth) : Optional Count d.spelling (draws d) := by
  unfold Depth.spelling draws
  split
  · exact .absent
  · exact .present (count_count _)

theorem words_of_run {marks : Nat} {letter s t : List Char} {m : Option UInt32} {b : Burst}
    {ws : List Word} (hb : Run marks letter m b) (hs : Optional Count s m) (ht : Words t ws)
    (ha : letter = [] → s = [] → t.head? ≠ some '!') :
    Words (List.replicate marks '!' ++ letter ++ s ++ t) (.burst b :: ws) :=
  Words.cons (.burst hb hs) ht (apart_burst hb hs ha)

theorem words_marks {marks : Nat} {t : List Char} {b : Burst} {ws : List Word}
    (hb : Run marks [] none b) (ht : Words t ws) (hmark : t.head? ≠ some '!') :
    Words (List.replicate marks '!' ++ t) (.burst b :: ws) := by
  have := words_of_run hb .absent ht fun _ _ => hmark
  rwa [List.append_nil, List.append_nil] at this

theorem words_compound {marks : Nat} {t : List Char} {d : Depth} {b : Burst} {ws : List Word}
    (hb : Run marks [] (draws d) b) (hd : ¬ d.isUnlimited) (ht : Words t ws) :
    Words (List.replicate marks '!' ++ d.spelling ++ t) (.burst b :: ws) := by
  have hne : d.spelling ≠ [] := by
    rw [Depth.spelling, if_neg hd]
    exact Text.Decimal.ofNat_ne_nil _
  have := words_of_run hb (optional_spelling d) ht fun _ h => absurd h hne
  rwa [List.append_nil] at this

theorem words_penetrate {marks : Nat} {t : List Char} {d : Depth} {b : Burst} {ws : List Word}
    (hb : Run marks ['p'] (draws d) b) (ht : Words t ws) :
    Words (List.replicate marks '!' ++ 'p' :: d.spelling ++ t) (.burst b :: ws) := by
  have := words_of_run hb (optional_spelling d) ht fun h _ => nomatch h
  rwa [List.append_assoc _ ['p']] at this

section Runs

variable (d : Depth)

theorem run_compound : Run 2 [] (draws d) { compound := some d } := by
  have := Run.compound (m := draws d)
  rwa [depth_draws] at this

theorem run_explodeCompound : Run 3 [] (draws d) { explode := true, compound := some d } := by
  have := Run.explodeCompound (m := draws d)
  rwa [depth_draws] at this

theorem run_penetrate : Run 1 ['p'] (draws d) { penetrate := some d } := by
  have := Run.penetrate (m := draws d) (c := 'p') (.inr rfl)
  rwa [depth_draws] at this

theorem run_explodePenetrate : Run 2 ['p'] (draws d) { explode := true, penetrate := some d } := by
  have := Run.explodePenetrate (m := draws d) (c := 'p') (.inr rfl)
  rwa [depth_draws] at this

theorem run_compoundPenetrate :
    Run 3 ['p'] (draws d) { compound := some .unlimited, penetrate := some d } := by
  have := Run.compoundPenetrate (m := draws d) (c := 'p') (.inr rfl)
  rwa [depth_draws] at this

theorem run_explodeCompoundPenetrate :
    Run 4 ['p'] (draws d)
      { explode := true, compound := some .unlimited, penetrate := some d } := by
  have := Run.explodeCompoundPenetrate (m := draws d) (c := 'p') (.inr rfl)
  rwa [depth_draws] at this

end Runs

def burstText (explode : Bool) (compound penetrate : Option Depth) : List Char :=
  (if explode then ['!'] else []) ++ compound.elim [] (fun d => '!' :: '!' :: d.spelling) ++
    penetrate.elim [] (fun d => '!' :: 'p' :: d.spelling)

/--
The words that the marks fall into. A number ends a word, so that marks after a limited depth are a
word of their own.
-/
def burstWords (explode : Bool) (compound penetrate : Option Depth) : List Word :=
  match compound with
  | none =>
    if explode || penetrate.isSome then [.burst { explode, penetrate }] else []
  | some d =>
    if d.isUnlimited then
      [.burst { explode, compound := some .unlimited, penetrate }]
    else
      .burst { explode, compound := some d } ::
        penetrate.elim [] fun d => [.burst { penetrate := some d }]

theorem words_burst {t : List Char} {ws : List Word} (ht : Words t ws)
    (hmark : t.head? ≠ some '!') (explode : Bool) (compound penetrate : Option Depth) :
    Words (burstText explode compound penetrate ++ t)
      (burstWords explode compound penetrate ++ ws) := by
  cases compound with
  | none =>
    cases explode <;> cases penetrate
    case false.none => exact ht
    case true.none => exact words_marks .explode ht hmark
    case false.some d => exact words_penetrate (run_penetrate d) ht
    case true.some d => exact words_penetrate (run_explodePenetrate d) ht
  | some c =>
    -- Without a number the marks run on into those of `penetrate`, as one word.
    by_cases hc : c.isUnlimited
    · have hspell : c.spelling = [] := if_pos hc
      have hwords : burstWords explode (some c) penetrate =
          [.burst { explode, compound := some .unlimited, penetrate }] := if_pos hc
      rw [hwords, burstText, Option.elim_some, hspell]
      cases explode <;> cases penetrate
      case false.none => exact words_marks .compound ht hmark
      case true.none => exact words_marks .explodeCompound ht hmark
      case false.some d => exact words_penetrate (run_compoundPenetrate d) ht
      case true.some d => exact words_penetrate (run_explodeCompoundPenetrate d) ht
    · have hwords : burstWords explode (some c) penetrate =
          .burst { explode, compound := some c } ::
            penetrate.elim [] fun d => [.burst { penetrate := some d }] := if_neg hc
      have hrest : Words (penetrate.elim [] (fun d => '!' :: 'p' :: d.spelling) ++ t)
          (penetrate.elim [] (fun d => [.burst { penetrate := some d }]) ++ ws) := by
        cases penetrate with
        | none => exact ht
        | some d => exact words_penetrate (run_penetrate d) ht
      rw [hwords, burstText, List.append_assoc]
      cases explode
      case false => exact words_compound (run_compound c) hc hrest
      case true => exact words_compound (run_explodeCompound c) hc hrest

end Notation

/-! ### Words of whole sets -/

namespace ModifierSet

structure IsWritable (m : ModifierSet) : Prop where
  plus : ∀ n ∈ m.plus, 0 ≤ n.toInt
  minus : ∀ n ∈ m.minus, 0 ≤ n.toInt
  drop : ∀ d ∈ m.drop, d.filter.exact.Nodup
  reroll : ∀ r ∈ m.reroll, r.trigger.exact.Nodup
  unique : ∀ u ∈ m.unique, u.notUnique.Nodup

theorem distinct_of_isWritable {m : ModifierSet} (h : m.IsWritable) : m.distinct = m := by
  have hdrop : ∀ d ∈ m.drop, d.distinct = d := by
    intro d hd
    rw [Drop.distinct, Condition.distinct_of_nodup (h.drop d hd)]
  have hreroll : ∀ r ∈ m.reroll, r.distinct = r := by
    intro r hr
    rw [Reroll.distinct, Condition.distinct_of_nodup (h.reroll r hr)]
  have hunique : ∀ u ∈ m.unique, u.distinct = u := by
    intro u hu
    rw [Unique.distinct, eraseDups_of_nodup (h.unique u hu)]
  rw [distinct, Option.map_congr hdrop, Option.map_congr hreroll, Option.map_congr hunique,
    Option.map_id', Option.map_id', Option.map_id']

def words (m : ModifierSet) : List Word :=
  m.cap.elim [] capWords ++ m.drop.elim [] dropWords ++
    m.replace.elim [] (fun rules => [.replace rules]) ++ m.reroll.elim [] rerollWords ++
    (burstWords m.explode m.compound m.penetrate ++
      (m.unique.elim [] (fun u => [.unique u.notUnique]) ++ m.plus.elim [] (fun n => [.plus n]) ++
        m.minus.elim [] (fun n => [.minus n])))

theorem flatMap_filterMap {α β γ : Type} (g : α → Option β) (f : β → List γ) (as : List α) :
    (as.filterMap g).flatMap f = as.flatMap fun a => (g a).elim [] f := by
  induction as with
  | nil => rfl
  | cons a as ih => cases h : g a <;> simp [h, ih]

theorem flatMap_spelling (m : ModifierSet) :
    m.toList.flatMap Modifier.spelling =
      m.cap.elim [] (fun c => (Modifier.cap c).spelling) ++
        m.drop.elim [] (fun d => (Modifier.drop d).spelling) ++
        m.replace.elim [] (fun rules => (Modifier.replace rules).spelling) ++
        m.reroll.elim [] (fun r => (Modifier.reroll r).spelling) ++
        (burstText m.explode m.compound m.penetrate ++
          (m.unique.elim [] (fun u => (Modifier.unique u).spelling) ++
            m.plus.elim [] (fun n => (Modifier.plus n).spelling) ++
            m.minus.elim [] (fun n => (Modifier.minus n).spelling))) := by
  rw [toList, flatMap_filterMap]
  have hexplode :
      (m.get? .explode).elim [] Modifier.spelling = if m.explode then ['!'] else [] := by
    rw [get?]
    split <;> rfl
  simp only [Kind.inOrder, List.flatMap_cons, List.flatMap_nil, hexplode]
  simp [get?, Option.elim_map, burstText, Modifier.spelling, Function.comp_def]

theorem head?_ne_mark (u : Option Unique) (n k : Option Int64) :
    (u.elim [] (fun u => (Modifier.unique u).spelling) ++
      n.elim [] (fun n => (Modifier.plus n).spelling) ++
      k.elim [] (fun n => (Modifier.minus n).spelling)).head? ≠ some '!' := by
  cases u with
  | some u =>
    obtain ⟨exempt⟩ := u
    cases exempt <;> simp [Modifier.spelling, Unique.spelling]
  | none => cases n <;> cases k <;> simp [Modifier.spelling]

theorem words_spelling {m : ModifierSet} (hplus : ∀ n ∈ m.plus, 0 ≤ n.toInt)
    (hminus : ∀ n ∈ m.minus, 0 ≤ n.toInt) (hfilled : m.IsFilled) (hnormal : m.IsNormal)
    (hexact : ∀ c ∈ m.cap, c.exact = []) :
    Words (m.toList.flatMap Modifier.spelling) m.words := by
  have hcap := leads_elim fun c hc => leads_cap (hfilled.cap c hc) (hexact c hc)
  have hdrop := leads_elim fun d (_ : d ∈ m.drop) => leads_drop d
  have hreplace := leads_elim fun rules hrules =>
    leads_replace (hfilled.replace rules hrules).1 (hnormal.replace rules hrules)
  have hreroll := leads_elim fun r hr => leads_reroll (hfilled.reroll r hr)
  have hunique := leads_elim fun u (_ : u ∈ m.unique) => leads_unique u
  have hplus := leads_elim fun n hn => leads_plus (hplus n hn)
  have hminus := leads_elim fun n hn => leads_minus (hminus n hn)
  have hback := (hunique.append hplus).append hminus [] [] Words.nil
  rw [List.append_nil, List.append_nil] at hback
  -- Marks can only stand before words that do not begin with one, so they are put on next.
  have hburst := words_burst hback (head?_ne_mark m.unique m.plus m.minus) m.explode m.compound
    m.penetrate
  rw [flatMap_spelling]
  exact ((hcap.append hdrop).append hreplace).append hreroll _ _ hburst

/-! ### Tokens of whole sets -/

section Merge

variable {m : ModifierSet}

theorem mergeAll_append_of_ok {m' : ModifierSet} {xs ys : List Token}
    (h : mergeAll m xs = .ok m') : mergeAll m (xs ++ ys) = mergeAll m' ys := by
  rw [mergeAll_append, h]
  rfl

theorem mergeAll_elim {α : Type} {o : Option α} {w : α → List Word} {f : Option α → ModifierSet}
    (hnone : f none = m)
    (h : ∀ a ∈ o, mergeAll m ((w a).flatMap Word.tokens) = .ok (f (some a))) :
    mergeAll m ((o.elim [] w).flatMap Word.tokens) = .ok (f o) := by
  cases o with
  | none =>
    rw [hnone]
    rfl
  | some a => exact h a rfl

theorem mergeAll_words_cap (h : m.cap = none) {c : Condition} (hc : c.exact = []) :
    mergeAll m ((capWords c).flatMap Word.tokens) = .ok { m with cap := some c } := by
  have hdistinct : c.distinct = c := Condition.distinct_of_nodup (by simp [hc])
  have hcond : Term.condition c.bounds = c := by
    rw [← Condition.comparisons_eq_bounds hc, Condition.condition_comparisons, hdistinct]
  rw [capWords, List.flatMap_singleton, Word.tokens, mergeAll_modifier, merge, h, hcond,
    Option.getD_none, Condition.empty_merge, hdistinct]
  rfl

theorem mergeAll_words_drop (h : m.drop = none) {d : Drop} (hne : ¬ d.isEmpty) :
    mergeAll m ((dropWords d).flatMap Word.tokens) = .ok { m with drop := some d.distinct } := by
  obtain ⟨highest, lowest, filter⟩ := d
  have hcond := Condition.condition_comparisons filter
  have hmerge := Condition.empty_merge filter.distinct
  rw [Condition.distinct_distinct] at hmerge
  have hempty : ({} : Condition).merge {} = {} := rfl
  have hnil : ({} : Condition).distinct = {} := rfl
  -- Merging starts from an entry that sets nothing, and every word sets one part of it.
  by_cases hf : filter.isEmpty
  · obtain rfl := Condition.eq_empty hf
    cases highest <;> cases lowest <;>
      simp_all [dropWords, mergeAll, Word.tokens, merge, Drop.merge, Drop.distinct, getD_short,
        Drop.isEmpty, pure, Except.pure, bind, Except.bind]
  · cases highest <;> cases lowest <;>
      simp_all [dropWords, mergeAll, Word.tokens, merge, Drop.merge, Drop.distinct, getD_short,
        pure, Except.pure, bind, Except.bind]

theorem mergeAll_words_replace (h : m.replace = none) (rules : List Replacement) :
    mergeAll m ([Word.replace rules].flatMap Word.tokens) =
      .ok { m with replace := some rules } := by
  rw [List.flatMap_singleton, Word.tokens, mergeAll_modifier, merge, h]
  rfl

theorem mergeAll_words_reroll (h : m.reroll = none) (r : Reroll) :
    mergeAll m ((rerollWords r).flatMap Word.tokens) =
      .ok { m with reroll := some r.distinct } := by
  rw [rerollWords, List.flatMap_singleton, Word.tokens, mergeAll_modifier, merge, h,
    Option.getD_none, Reroll.empty_merge, Condition.condition_comparisons, Reroll.distinct,
    Condition.distinct_distinct]
  rfl

theorem mergeAll_words_unique (h : m.unique = none) (u : Unique) :
    mergeAll m ([Word.unique u.notUnique].flatMap Word.tokens) =
      .ok { m with unique := some u.distinct } := by
  rw [List.flatMap_singleton, Word.tokens, mergeAll_modifier, merge, h, Option.getD_none,
    Unique.empty_merge]
  rfl

theorem mergeAll_words_plus (h : m.plus = none) (n : Int64) :
    mergeAll m ([Word.plus n].flatMap Word.tokens) = .ok { m with plus := some n } := by
  rw [List.flatMap_singleton, Word.tokens, mergeAll_modifier, merge, h, addTerm_none]
  rfl

theorem mergeAll_words_minus (h : m.minus = none) (n : Int64) :
    mergeAll m ([Word.minus n].flatMap Word.tokens) = .ok { m with minus := some n } := by
  rw [List.flatMap_singleton, Word.tokens, mergeAll_modifier, merge, h, addTerm_none]
  rfl

theorem mergeAll_words_burst (he : m.explode = false) (hc : m.compound = none)
    (hp : m.penetrate = none) (explode : Bool) (compound penetrate : Option Depth) :
    mergeAll m ((burstWords explode compound penetrate).flatMap Word.tokens) =
      .ok { m with explode, compound, penetrate } := by
  have hone : ∀ b : Burst, mergeAll m ([Word.burst b].flatMap Word.tokens) =
      .ok { m with explode := b.explode, compound := b.compound, penetrate := b.penetrate } := by
    intro b
    rw [List.flatMap_singleton, Word.tokens, mergeAll_burst, he, hc, hp]
    simp
  cases compound with
  | none =>
    rw [burstWords]
    split
    · exact hone { explode, penetrate }
    · next hnot =>
      obtain ⟨rfl, rfl⟩ : explode = false ∧ penetrate = none := by simpa using hnot
      have hm : { m with explode := false, compound := none, penetrate := none } = m := by
        cases m
        simp_all
      rw [hm]
      rfl
  | some c =>
    rw [burstWords]
    split
    · next hu =>
      rw [← Depth.eq_unlimited hu]
      exact hone { explode, compound := some c, penetrate }
    · cases penetrate with
      | none => exact hone { explode, compound := some c }
      | some d =>
        rw [← List.singleton_append, List.flatMap_append,
          mergeAll_append_of_ok (hone { explode, compound := some c }), Option.elim_some,
          List.flatMap_singleton, Word.tokens, mergeAll_burst]
        simp

theorem mergeAll_flatMap_words (hfilled : m.IsFilled) (hnormal : m.IsNormal)
    (hexact : ∀ c ∈ m.cap, c.exact = []) :
    mergeAll {} (m.words.flatMap Word.tokens) = .ok m.distinct := by
  obtain ⟨cap, drop, keep, replace, reroll, explode, compound, penetrate, unique, plus, minus⟩ := m
  obtain rfl := hnormal.keep
  -- Every part of the words fills one more entry.
  have hcap := mergeAll_elim (f := fun cap => { cap }) rfl
    fun c hc => mergeAll_words_cap rfl (hexact c hc)
  have hdrop := mergeAll_elim (m := { cap })
    (f := fun drop => { cap, drop := drop.map Drop.distinct }) rfl
    fun d hd => mergeAll_words_drop rfl (hfilled.drop d hd)
  generalize hd : drop.map Drop.distinct = drop' at hdrop
  have hreplace := mergeAll_elim (f := fun replace => { cap, drop := drop', replace }) rfl
    fun rules (_ : rules ∈ replace) => mergeAll_words_replace rfl rules
  have hreroll := mergeAll_elim (m := { cap, drop := drop', replace })
    (f := fun reroll => { cap, drop := drop', replace, reroll := reroll.map Reroll.distinct }) rfl
    fun r (_ : r ∈ reroll) => mergeAll_words_reroll rfl r
  generalize hr : reroll.map Reroll.distinct = reroll' at hreroll
  have hburst := mergeAll_words_burst (m := { cap, drop := drop', replace, reroll := reroll' })
    rfl rfl rfl explode compound penetrate
  have hunique := mergeAll_elim
    (m := { cap, drop := drop', replace, reroll := reroll', explode, compound, penetrate })
    (f := fun unique =>
      { cap, drop := drop', replace, reroll := reroll', explode, compound, penetrate,
        unique := unique.map Unique.distinct }) rfl
    fun u (_ : u ∈ unique) => mergeAll_words_unique rfl u
  generalize hu : unique.map Unique.distinct = unique' at hunique
  have hplus := mergeAll_elim
    (f := fun plus =>
      { cap, drop := drop', replace, reroll := reroll', explode, compound, penetrate,
        unique := unique', plus }) rfl
    fun n (_ : n ∈ plus) => mergeAll_words_plus rfl n
  have hminus := mergeAll_elim
    (f := fun minus =>
      { cap, drop := drop', replace, reroll := reroll', explode, compound, penetrate,
        unique := unique', plus, minus }) rfl
    fun n (_ : n ∈ minus) => mergeAll_words_minus rfl n
  rw [distinct, hd, hr, hu]
  simp only [words, List.flatMap_append, List.append_assoc]
  rw [mergeAll_append_of_ok hcap, mergeAll_append_of_ok hdrop, mergeAll_append_of_ok hreplace,
    mergeAll_append_of_ok hreroll, mergeAll_append_of_ok hburst, mergeAll_append_of_ok hunique,
    mergeAll_append_of_ok hplus, hminus]

end Merge

end ModifierSet

end DicePool
