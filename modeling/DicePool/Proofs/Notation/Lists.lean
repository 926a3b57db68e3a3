import DicePool.Proofs.Notation.Stopping

/-!
This module contains the lists in braces. The main statement is `ofNotation_joined`: a list may be
split into two after the same letter and two may be joined into one. It rests on `condition_join`
for the terms of one list and on `merge_assoc` for those of lists that follow each other.
-/

namespace DicePool

/-! ### Merging conditions -/

namespace Condition

theorem mem_addNew {xs ys : List Int64} {v : Int64} : v ∈ addNew xs ys ↔ v ∈ xs ∨ v ∈ ys := by
  induction ys using List.reverseRecOn generalizing v with
  | nil => simp
  | append_singleton ys y ih =>
    rw [addNew_append, Notation.addNew_singleton]
    split
    · next hy =>
      rw [ih] at hy
      rw [ih, List.mem_append, List.mem_singleton]
      grind
    · rw [List.mem_append, ih, List.mem_append, or_assoc]

theorem addNew_assoc (xs ys zs : List Int64) :
    addNew (addNew xs ys) zs = addNew xs (addNew ys zs) := by
  induction zs using List.reverseRecOn with
  | nil => rfl
  | append_singleton zs z ih =>
    rw [addNew_append, ih, addNew_append, Notation.addNew_singleton, Notation.addNew_singleton]
    by_cases hz : z ∈ addNew ys zs
    · rw [if_pos hz, if_pos (mem_addNew.2 (.inr hz))]
    · rw [if_neg hz, addNew_append, Notation.addNew_singleton]

theorem merge_assoc (a b c : Condition) : (a.merge b).merge c = a.merge (b.merge c) := by
  simp [merge, addNew_assoc, Option.or_assoc]

end Condition

namespace Notation

open Grammar

theorem Term.condition_join (ts us : List Term) :
    Term.condition (ts ++ us) = (Term.condition ts).merge (Term.condition us) := by
  rw [term_condition, term_condition, term_condition, Notation.condition_append]

theorem Term.merge_condition_join (a : Condition) (ts us : List Term) :
    (a.merge (Term.condition ts)).merge (Term.condition us) =
      a.merge (Term.condition (ts ++ us)) := by
  rw [Term.condition_join, Condition.merge_assoc]

/-! ### Words with lists -/

namespace Grammar

inductive Part : (letter : Char) → List Char → Prop where
  | cap {s : List Char} {t : Term} (hs : Bound s t) : Part 'C' s
  | drop {s : List Char} {t : Term} (hs : Comparison s t) : Part 'D' s
  | reroll {s : List Char} {t : Term} (hs : Comparison s t) : Part 'R' s
  | replace {s : List Char} {r : Replacement} (hs : Rule s r) : Part 'V' s
  | unique {s : List Char} {n : Int64} (hs : Integer s n) : Part 'U' s

inductive Joins : Word → Word → Word → Prop where
  | cap (as bs : List Term) : Joins (.cap as) (.cap bs) (.cap (as ++ bs))
  | drop (as bs : List Term) : Joins (.drop as) (.drop bs) (.drop (as ++ bs))
  | reroll (as bs : List Term) :
      Joins (.reroll as none) (.reroll bs none) (.reroll (as ++ bs) none)
  | replace (as bs : List Replacement) : Joins (.replace as) (.replace bs) (.replace (as ++ bs))
  | unique (as bs : List Int64) : Joins (.unique as) (.unique bs) (.unique (as ++ bs))

variable {α : Type} {item : List Char → α → Prop} {u : Char} {xs ys : List (List Char)}

theorem exists_forall₂ (h : ∀ s ∈ xs, ∃ a, item s a) : ∃ as, List.Forall₂ item xs as := by
  induction xs with
  | nil => exact ⟨[], .nil⟩
  | cons s xs ih =>
    rw [List.forall_mem_cons] at h
    obtain ⟨⟨a, ha⟩, hxs⟩ := h
    obtain ⟨as, has⟩ := ih hxs
    exact ⟨a :: as, .cons ha has⟩

theorem exists_listed_append (hx : xs ≠ []) (hy : ys ≠ []) (hxs : ∀ s ∈ xs, ∃ a, item s a)
    (hys : ∀ s ∈ ys, ∃ a, item s a) :
    ∃ as bs, Listed item (braces xs) as ∧ Listed item (braces ys) bs ∧
      Listed item (braces (xs ++ ys)) (as ++ bs) := by
  obtain ⟨as, has⟩ := exists_forall₂ hxs
  obtain ⟨bs, hbs⟩ := exists_forall₂ hys
  refine ⟨as, bs, ⟨xs, hx, rfl, has⟩, ⟨ys, hy, rfl, hbs⟩, xs ++ ys, ?_, rfl, ?_⟩
  · exact List.append_ne_nil_of_left_ne_nil hx ys
  · exact List.rel_append has hbs

theorem exists_joins_of {word : List α → Word} (hx : xs ≠ []) (hy : ys ≠ [])
    (hxs : ∀ s ∈ xs, Part u s) (hys : ∀ s ∈ ys, Part u s)
    (hpart : ∀ s, Part u s → ∃ a, item s a)
    (hspells : ∀ {c s as}, Letter u c → Listed item s as → Spells (c :: s) (word as))
    (hjoins : ∀ as bs, Joins (word as) (word bs) (word (as ++ bs))) :
    ∃ v w j, Joins v w j ∧
      ∀ c, Letter u c → Spells (c :: braces xs) v ∧ Spells (c :: braces ys) w ∧
        Spells (c :: braces (xs ++ ys)) j := by
  obtain ⟨as, bs, has, hbs, hab⟩ :=
    exists_listed_append hx hy (fun s hs => hpart s (hxs s hs)) fun s hs => hpart s (hys s hs)
  refine ⟨_, _, _, hjoins as bs, ?_⟩
  intro c hc
  exact ⟨hspells hc has, hspells hc hbs, hspells hc hab⟩

theorem exists_joins (hx : xs ≠ []) (hy : ys ≠ []) (hxs : ∀ s ∈ xs, Part u s)
    (hys : ∀ s ∈ ys, Part u s) :
    ∃ v w j, Joins v w j ∧
      ∀ c, Letter u c → Spells (c :: braces xs) v ∧ Spells (c :: braces ys) w ∧
        Spells (c :: braces (xs ++ ys)) j := by
  obtain ⟨first, hfirst⟩ := List.exists_mem_of_ne_nil xs hx
  -- The first part tells which letter it is.
  cases hxs first hfirst with
  | cap =>
    refine exists_joins_of hx hy hxs hys ?_ .cap .cap
    intro s h
    cases h with
    | cap hs => exact ⟨_, hs⟩
  | drop =>
    refine exists_joins_of hx hy hxs hys ?_ .drop .drop
    intro s h
    cases h with
    | drop hs => exact ⟨_, hs⟩
  | reroll =>
    have hspells {c : Char} {s : List Char} {as : List Term} (hc : Letter 'R' c)
        (hs : Listed Comparison s as) : Spells (c :: s) (.reroll as none) := by
      have := Spells.reroll hc hs .absent
      rwa [List.append_nil] at this
    refine exists_joins_of hx hy hxs hys ?_ hspells .reroll
    intro s h
    cases h with
    | reroll hs => exact ⟨_, hs⟩
  | replace =>
    refine exists_joins_of hx hy hxs hys ?_ .replace .replace
    intro s h
    cases h with
    | replace hs => exact ⟨_, hs⟩
  | unique =>
    refine exists_joins_of hx hy hxs hys ?_ .uniqueExcept .unique
    intro s h
    cases h with
    | unique hs => exact ⟨_, hs⟩

theorem Part.isUpper {s : List Char} (h : Part u s) : u.isUpper := by
  cases h <;> rfl

theorem Part.ne_keep {s : List Char} (h : Part u s) : u ≠ 'K' := by
  cases h <;> decide

end Grammar

theorem mergeAll_of_joins {v w j : Word} (h : Joins v w j) (m : ModifierSet) :
    mergeAll m (v.tokens ++ w.tokens) = mergeAll m j.tokens := by
  cases h with
  | cap as bs =>
    exact congrArg (fun bounds => Except.ok { m with cap := some bounds })
      (Term.merge_condition_join _ as bs)
  | drop as bs =>
    exact congrArg (fun filter => Except.ok { m with drop := some { m.drop.getD {} with filter } })
      (Term.merge_condition_join _ as bs)
  | reroll as bs =>
    exact congrArg
      (fun trigger => Except.ok { m with reroll := some { m.reroll.getD {} with trigger } })
      (Term.merge_condition_join _ as bs)
  | replace as bs =>
    exact congrArg (fun rules => Except.ok { m with replace := some rules })
      (List.append_assoc _ as bs)
  | unique as bs =>
    exact congrArg (fun values => Except.ok { m with unique := some ⟨values⟩ })
      (Condition.addNew_append _ as bs).symm

theorem mergeAll_joined {v w j : Word} (h : Joins v w j) :
    mergeAll {} j.tokens = .ok (denote [j]) := by
  change mergeAll (denote []) j.tokens = .ok (denote ([] ++ [j]))
  -- None of these words is about a sum.
  cases h <;> exact mergeAll_tokens rfl rfl

end Notation

namespace PoolSpec

open Notation Notation.Grammar

theorem ofNotation_of_mergeAll {front u : List Char} {dice : Dice} {n : UInt32}
    {ws vs : List Word} (hfront : readDice front = .ok (dice, []))
    (hn : dice.sides = .numbered n) (hu : Words u ws)
    (hm : mergeAll {} (ws.flatMap Word.tokens) = .ok (denote vs)) :
    ofNotation (.ofList (front ++ u)) = .ok (pool dice vs) := by
  have hspec : toSpec dice (ws.flatMap Word.tokens) = .ok (pool dice vs) := by
    apply toSpec_eq_ok_iff.2
    refine ⟨?_, _, hm, rfl⟩
    intro labels hf
    rw [hn] at hf
    contradiction
  rw [ofNotation_front hfront hu, hspec]
  rfl

theorem ofNotation_joined {front : List Char} {dice : Dice} {n : UInt32} {u c d : Char}
    {xs ys : List (List Char)} (hfront : readDice front = .ok (dice, []))
    (hn : dice.sides = .numbered n) (hc : Letter u c) (hd : Letter u d) (hx : xs ≠ [])
    (hy : ys ≠ []) (hxs : ∀ s ∈ xs, Part u s) (hys : ∀ s ∈ ys, Part u s) :
    (∃ j, Spells (c :: braces (xs ++ ys)) j ∧
        ofNotation (.ofList (front ++ c :: braces (xs ++ ys))) = .ok (pool dice [j]) ∧
        ofNotation (.ofList (front ++ (c :: braces xs ++ d :: braces ys))) =
          .ok (pool dice [j])) ∧
      (∀ ts us : List Term,
        Term.condition (ts ++ us) = (Term.condition ts).merge (Term.condition us)) ∧
      ∀ a b c : Condition, (a.merge b).merge c = a.merge (b.merge c) := by
  refine ⟨?_, Term.condition_join, Condition.merge_assoc⟩
  obtain ⟨v, w, j, hjoins, hspells⟩ := exists_joins hx hy hxs hys
  obtain ⟨s, hs⟩ := List.exists_mem_of_ne_nil xs hx
  have hapart {c : Char} (hc : Letter u c) (t rest : List Char) : Apart (c :: t) rest :=
    apart_letter hc (hxs s hs).isUpper (hxs s hs).ne_keep
  have hone : Words (c :: braces (xs ++ ys)) [j] := by
    simpa using Words.cons (hspells c hc).2.2 Words.nil (hapart hc _ _)
  have hsecond : Words (d :: braces ys) [w] := by
    simpa using Words.cons (hspells d hd).2.1 Words.nil (hapart hd _ _)
  have htwo : Words (c :: braces xs ++ d :: braces ys) [v, w] :=
    Words.cons (hspells c hc).1 hsecond (hapart hc _ _)
  have hm := mergeAll_joined hjoins
  refine ⟨j, (hspells c hc).2.2, ?_, ?_⟩
  · apply ofNotation_of_mergeAll hfront hn hone
    rwa [List.flatMap_singleton]
  · apply ofNotation_of_mergeAll hfront hn htwo
    rw [List.flatMap_cons, List.flatMap_singleton, mergeAll_of_joins hjoins, hm]

theorem ofNotation_joined_drop :
    ∃ j, ofNotation "4d6D\x7b>5,1,1,>3\x7d" =
        .ok (pool { sign := .add, quantity := 4, sides := .numbered 6 } [j]) ∧
      ofNotation "4d6D\x7b>5,1\x7dd\x7b1,>3\x7d" =
        .ok (pool { sign := .add, quantity := 4, sides := .numbered 6 } [j]) := by
  have hfront : readDice "4d6".toList =
      .ok ({ sign := .add, quantity := 4, sides := .numbered 6 }, []) := by
    decide +kernel
  have hvalue : Part 'D' ['1'] :=
    .drop (t := .exact 1) (Term.read?_eq_some_iff.1 (by decide +kernel))
  have hfive : Part 'D' ['>', '5'] :=
    .drop (t := .greaterThan 5) (Term.read?_eq_some_iff.1 (by decide +kernel))
  have hthree : Part 'D' ['>', '3'] :=
    .drop (t := .greaterThan 3) (Term.read?_eq_some_iff.1 (by decide +kernel))
  have hxs : ∀ s ∈ [['>', '5'], ['1']], Part 'D' s := by
    simp [hfive, hvalue]
  have hys : ∀ s ∈ [['1'], ['>', '3']], Part 'D' s := by
    simp [hthree, hvalue]
  have hc : Letter 'D' 'D' := .inl rfl
  have hd : Letter 'D' 'd' := .inr rfl
  obtain ⟨⟨j, _, hone, htwo⟩, _⟩ :=
    ofNotation_joined hfront rfl hc hd (by simp) (by simp) hxs hys
  exact ⟨j, hone, htwo⟩

end PoolSpec

end DicePool
