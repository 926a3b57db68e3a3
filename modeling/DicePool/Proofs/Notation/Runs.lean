import DicePool.Proofs.Notation.Spelling

/-!
This module contains the reading of runs of exclamation marks that stand next to each other. The
main statement is `Token.runsBefore?_spelling`: the modifiers for exploding and growing dice are
written so that reading one run after the other gives them back.
-/

namespace DicePool.Notation

open Grammar

/--
What follows runs of exclamation marks and cannot be read as a part of the last one.
-/
def EndsRuns (rest : List Char) : Prop :=
  ∀ c ∈ rest.head?, c ≠ '!' ∧ c ≠ 'p' ∧ c ≠ 'P' ∧ ¬ c.isDigit

namespace Token

theorem length_lt_of_run?_eq_some {s rest : List Char} {ts : List Token}
    (h : run? s = some (ts, rest)) : rest.length < s.length := by
  obtain ⟨u, w, rfl, hu, _⟩ := exists_spells_of_run? h
  obtain ⟨c, t, rfl, _⟩ := hu.exists_start
  rw [List.length_append, List.length_cons]
  omega

def runsBefore? (rest s : List Char) : Option (List Token) :=
  if s = rest then
    some []
  else
    match h : run? s with
    | none => none
    | some (ts, t) =>
      have := length_lt_of_run?_eq_some h
      (runsBefore? rest t).map (ts ++ ·)
termination_by s.length

theorem runsBefore?_self (rest : List Char) : runsBefore? rest rest = some [] := by
  rw [runsBefore?, if_pos rfl]

theorem runsBefore?_of_run? {rest s t : List Char} {ts : List Token} (hne : s ≠ rest)
    (h : run? s = some (ts, t)) :
    runsBefore? rest s = (runsBefore? rest t).map (ts ++ ·) := by
  rw [runsBefore?, if_neg hne]
  split
  · next hnone =>
    rw [hnone] at h
    contradiction
  · next heq =>
    rw [heq, Option.some.injEq, Prod.mk.injEq] at h
    obtain ⟨rfl, rfl⟩ := h
    rfl

theorem head?_of_bursts {t : List Char} {ws : List Word} (h : Words t ws)
    (hws : ∀ w ∈ ws, ∃ b, w = .burst b) : t = [] ∨ ∃ v, t = '!' :: v := by
  cases ws with
  | nil => exact .inl h.eq_nil
  | cons w ws =>
    obtain ⟨u, v, rfl, hu, _⟩ := h.exists_of_cons
    obtain ⟨b, rfl⟩ := hws w List.mem_cons_self
    cases hu with
    | burst hb _ =>
      obtain ⟨j, rfl⟩ := Nat.exists_eq_succ_of_ne_zero (Nat.ne_of_gt hb.marks_pos)
      exact .inr ⟨_, rfl⟩

theorem run?_append_of_words {u t rest : List Char} {b : Burst} {ws : List Word}
    (hu : Spells u (.burst b)) (ht : Words t ws) (ha : Apart u t)
    (hws : ∀ w ∈ ws, ∃ b, w = .burst b) (hrest : EndsRuns rest) :
    run? (u ++ (t ++ rest)) = some (b.modifiers.map .modifier, t ++ rest) := by
  cases hu with
  | burst hb hs =>
    obtain rfl | ⟨v, rfl⟩ := head?_of_bursts ht hws
    · rw [List.nil_append]
      refine run?_append hb hs (apart_burst hb hs fun _ _ h => (hrest '!' h).1 rfl) ?_ ?_
      · intro c hc hp
        obtain ⟨_, hlower, hupper, _⟩ := hrest c hc
        exact hp.elim hupper hlower
      · intro c hc
        exact Bool.eq_false_iff.2 (hrest c hc).2.2.2
    · refine run?_append hb hs ((apart_congr rfl).1 ha) ?_ ?_
      · rintro c ⟨⟩
        decide
      · rintro c ⟨⟩
        decide

theorem runsBefore?_of_words {s rest : List Char} {ws : List Word} (h : Words s ws)
    (hws : ∀ w ∈ ws, ∃ b, w = .burst b) (hrest : EndsRuns rest) :
    runsBefore? rest (s ++ rest) = some (ws.flatMap Word.tokens) := by
  induction ws generalizing s with
  | nil =>
    rw [h.eq_nil]
    exact runsBefore?_self rest
  | cons w ws ih =>
    obtain ⟨u, t, rfl, hu, ht, ha⟩ := h.exists_of_cons
    rw [List.forall_mem_cons] at hws
    obtain ⟨⟨b, rfl⟩, hws⟩ := hws
    have hne : u ++ (t ++ rest) ≠ rest := by
      obtain ⟨c, v, rfl, _⟩ := hu.exists_start
      intro heq
      have hlength := congrArg List.length heq
      simp only [List.length_append, List.length_cons] at hlength
      omega
    rw [List.append_assoc, runsBefore?_of_run? hne (run?_append_of_words hu ht ha hws hrest),
      ih ht hws]
    rfl

theorem exists_burst_of_mem_burstWords {explode : Bool} {compound penetrate : Option Depth}
    {w : Word} (h : w ∈ burstWords explode compound penetrate) : ∃ b, w = .burst b := by
  unfold burstWords at h
  cases compound with
  | none =>
    dsimp only at h
    split at h
    · exact ⟨_, List.mem_singleton.1 h⟩
    · contradiction
  | some c =>
    dsimp only at h
    split at h
    · exact ⟨_, List.mem_singleton.1 h⟩
    · obtain rfl | h := List.mem_cons.1 h
      · exact ⟨_, rfl⟩
      · cases penetrate with
        | none => contradiction
        | some d => exact ⟨_, List.mem_singleton.1 h⟩

theorem tokens_burstWords (explode : Bool) (compound penetrate : Option Depth) :
    (burstWords explode compound penetrate).flatMap Word.tokens =
      (Burst.modifiers { explode, compound, penetrate }).map .modifier := by
  unfold burstWords
  cases compound with
  | none => cases explode <;> cases penetrate <;> rfl
  | some c =>
    dsimp only
    split
    · next hc =>
      rw [Depth.eq_unlimited hc, List.flatMap_singleton]
      rfl
    · cases explode <;> cases penetrate <;> rfl

theorem runsBefore?_spelling (explode : Bool) (compound penetrate : Option Depth)
    {rest : List Char} (h : EndsRuns rest) :
    let m : ModifierSet := { explode, compound, penetrate }
    runsBefore? rest (m.toList.flatMap Modifier.spelling ++ rest) =
      some (m.toList.map .modifier) := by
  intro m
  have hwords := words_burst Words.nil (by simp) explode compound penetrate
  rw [List.append_nil, List.append_nil] at hwords
  have htext : m.toList.flatMap Modifier.spelling = burstText explode compound penetrate := by
    rw [ModifierSet.flatMap_spelling]
    simp [m]
  have hlist : m.toList = Burst.modifiers { explode, compound, penetrate } := by
    cases explode <;> cases compound <;> cases penetrate <;> rfl
  rw [htext, runsBefore?_of_words hwords (fun _ => exists_burst_of_mem_burstWords) h,
    tokens_burstWords, hlist]

theorem runsBefore?_spelling_limited :
    EndsRuns "+1".toList ∧
      ModifierSet.toList { explode := true, compound := some ⟨3⟩, penetrate := some .unlimited } =
        [.explode, .compound ⟨3⟩, .penetrate .unlimited] ∧
      runsBefore? "+1".toList "!!!3!p+1".toList = some
        [.modifier .explode, .modifier (.compound ⟨3⟩), .modifier (.penetrate .unlimited)] := by
  have hends : EndsRuns "+1".toList := by
    rintro c ⟨⟩
    decide
  exact ⟨hends, rfl, runsBefore?_spelling true (some ⟨3⟩) (some .unlimited) hends⟩

end Token

end DicePool.Notation
