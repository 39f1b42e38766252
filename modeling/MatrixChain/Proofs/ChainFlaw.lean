import MatrixChain.Proofs.CheapestBracketing
import MatrixChain.Proofs.Run
import Mathlib.Data.List.Chain

/-!
# Operands that are no chain

Tables are made for operands of which each meets the one before it, if there is any operand and no boundary is
negative. Otherwise the flaw that is reported tells what is wrong first, with the boundaries up to there. Boundaries that
are given by themselves are refused if they are too few, or else for the first negative one.
-/

namespace MatrixChain
namespace Chain

open MatrixChain.Expr

section Boundaries

/-- What is wrong with boundaries: they are too few, or else one of them is the first negative one. -/
inductive Malformed : List Int → ChainFlaw → Prop where
  | noOperands {dimensions : List Int} (few : dimensions.length < 2) : Malformed dimensions .noOperands
  | negativeDimension {before after : List Int} {d : Int} (enough : 2 ≤ (before ++ d :: after).length)
      (nonneg : ∀ p ∈ before, 0 ≤ p) (negative : d < 0) : Malformed (before ++ d :: after) (.negativeDimension d)

theorem flaw?_eq_some_iff {dimensions : List Int} {flaw : ChainFlaw} :
    flaw? dimensions = some flaw ↔ Malformed dimensions flaw := by
  by_cases few : dimensions.length < 2
  · rw [flaw?, if_pos few]
    constructor
    · rintro ⟨⟩
      exact .noOperands few
    · rintro (_ | ⟨enough, _, _⟩)
      · rfl
      · omega
  · rw [flaw?, if_neg few, Option.map_eq_some_iff]
    constructor
    · rintro ⟨d, hfind, rfl⟩
      obtain ⟨hd, before, after, rfl, hbefore⟩ := List.find?_eq_some_iff_append.1 hfind
      exact .negativeDimension (by omega) (fun p hp => by simpa using hbefore p hp) (by simpa using hd)
    · rintro (hfew | ⟨_, nonneg, negative⟩)
      · exact absurd hfew few
      · refine ⟨_, List.find?_eq_some_iff_append.2 ⟨by simpa using negative, _, _, rfl, fun p hp => ?_⟩, rfl⟩
        simpa using nonneg p hp

theorem check_eq_error_iff {dimensions : List Int} {fault : Fault} :
    check dimensions = .error fault ↔ ∃ flaw, Malformed dimensions flaw ∧ fault = broken dimensions flaw := by
  simp only [← flaw?_eq_some_iff]
  cases h : flaw? dimensions with
  | none => simp [(check_eq_ok_iff dimensions).2 h]
  | some flaw => simp [check, h, throw, throwThe, MonadExceptOf.throw, eq_comm]

theorem bind_check_eq_error_iff {β : Type} {dimensions : List Int} {value : β} {fault : Fault} :
    (check dimensions >>= fun _ => pure value) = .error fault ↔ check dimensions = .error fault := by
  cases check dimensions with
  | ok => simp [bind, Except.bind, pure, Except.pure]
  | error => simp [bind, Except.bind]

end Boundaries

variable {α : Type}

/-- The columns of an operand are the rows of the next one. -/
def Meets (p o : Expr α) : Prop :=
  p.shape.cols = o.shape.rows

/-- What keeps operands from having tables. -/
inductive Flawed : List (Expr α) → BrokenChain → Prop where
  | empty : Flawed [] ⟨[], .noOperands⟩
  | differ {before after : List (Expr α)} {p o : Expr α} (chain : (before ++ [p]).IsChain Meets)
      (differ : ¬ Meets p o) :
      Flawed (before ++ p :: o :: after)
        ⟨boundaries ((before ++ [p]).map Expr.shape) ++ [o.shape.rows],
          .rowsDiffer o.infixText o.shape.rows p.shape.cols⟩
  | negative {operands : List (Expr α)} {d : Int} (nonempty : operands ≠ []) (chain : operands.IsChain Meets)
      (first : (boundaries (operands.map Expr.shape)).find? (· < 0) = some d) :
      Flawed operands ⟨boundaries (operands.map Expr.shape), .negativeDimension d⟩

/-- Operands that have tables. -/
structure Sound (operands : List (Expr α)) : Prop where
  nonempty : operands ≠ []
  chain : operands.IsChain Meets
  nonneg : ∀ d ∈ boundaries (operands.map Expr.shape), 0 ≤ d

theorem linked_of_isChain {operands : List (Expr α)} (h : operands.IsChain Meets) (hne : operands ≠ []) :
    Linked (operands.head hne).shape.rows (operands.map Expr.shape) (operands.getLast hne).shape.cols := by
  induction operands with
  | nil => exact absurd rfl hne
  | cons p operands ih =>
    cases operands with
    | nil => exact linked_singleton _
    | cons o operands =>
      rw [List.isChain_cons_cons] at h
      refine ⟨rfl, ?_⟩
      rw [h.1]
      exact ih h.2 (List.cons_ne_nil _ _)

theorem isChain_of_linked {rows cols : Int} {operands : List (Expr α)}
    (h : Linked rows (operands.map Expr.shape) cols) : operands.IsChain Meets := by
  induction operands generalizing rows with
  | nil => exact .nil
  | cons p operands ih =>
    cases operands with
    | nil => exact .singleton _
    | cons o operands => exact .cons_cons h.2.1.symm (ih h.2)

theorem Linked.ends_eq {rows cols : Int} {operands : List (Expr α)} (h : Linked rows (operands.map Expr.shape) cols)
    (hne : operands ≠ []) : (operands.head hne).shape.rows = rows ∧ (operands.getLast hne).shape.cols = cols := by
  induction operands generalizing rows with
  | nil => exact absurd rfl hne
  | cons p operands ih =>
    cases operands with
    | nil => exact h
    | cons o operands => exact ⟨h.1, (ih h.2 (List.cons_ne_nil _ _)).2⟩

theorem extendBoundaries_append {done : List Int} {rows cols : Int} {es rest : List (Expr α)}
    (h : Linked rows (es.map Expr.shape) cols) :
    ∃ done', cols :: done' = (es.map fun e => e.shape.cols).reverse ++ rows :: done ∧
      extendBoundaries done rows (es ++ rest) = extendBoundaries done' cols rest := by
  induction es generalizing done rows with
  | nil =>
    obtain rfl : rows = cols := h
    exact ⟨done, rfl, rfl⟩
  | cons e es ih =>
    obtain ⟨done', hdone, hextend⟩ := @ih (rows :: done) e.shape.cols h.2
    refine ⟨done', by simp [hdone], ?_⟩
    rw [List.cons_append, extendBoundaries, if_pos h.1]
    exact hextend

/-- The first operand that does not meet the one before it is reported. -/
theorem dimensionsOf_of_differ {before after : List (Expr α)} {p o : Expr α} (chain : (before ++ [p]).IsChain Meets)
    (differ : ¬ Meets p o) : dimensionsOf (before ++ p :: o :: after) =
      .error (broken (boundaries ((before ++ [p]).map Expr.shape) ++ [o.shape.rows])
        (.rowsDiffer o.infixText o.shape.rows p.shape.cols)) := by
  have hne : before ++ [p] ≠ [] := by simp
  have hlinked := linked_of_isChain chain hne
  rw [List.getLast_append_singleton] at hlinked
  obtain ⟨done, hdone, hextend⟩ := @extendBoundaries_append _ [] _ _ _ (o :: after) hlinked
  have hboundaries : (p.shape.cols :: done).reverse = boundaries ((before ++ [p]).map Expr.shape) := by
    rw [hdone, boundaries_of_linked hlinked (by simp)]
    simp
  have hstart : dimensionsOf (before ++ p :: o :: after) =
      extendBoundaries [] ((before ++ [p]).head hne).shape.rows ((before ++ [p]) ++ o :: after) := by
    cases before <;> simp [dimensionsOf]
  rw [hstart, hextend, extendBoundaries, if_neg fun h => differ h.symm, List.reverse_cons, hboundaries]
  rfl

theorem solve_of_negative {dimensions : List Int} (operand : 2 ≤ dimensions.length) {d : Int}
    (first : dimensions.find? (· < 0) = some d) :
    Tableau.solve dimensions = .error (broken dimensions (.negativeDimension d)) := by
  have hflaw : flaw? dimensions = some (.negativeDimension d) := by
    rw [flaw?, if_neg (by omega), first]
    rfl
  exact bind_check_eq_error_iff.2 (check_eq_error_iff.2 ⟨_, flaw?_eq_some_iff.1 hflaw, rfl⟩)

theorem Flawed.solve_eq {operands : List (Expr α)} {chain : BrokenChain} (h : Flawed operands chain) :
    dimensionsOf operands >>= Tableau.solve = .error (.brokenChain chain) := by
  cases h with
  | empty => rfl
  | differ chain differ =>
    rw [dimensionsOf_of_differ chain differ]
    rfl
  | negative nonempty chain first =>
    rw [dimensionsOf_of_linked (linked_of_isChain chain nonempty) nonempty]
    refine solve_of_negative ?_ first
    have hpos := List.length_pos_iff.2 nonempty
    rw [length_boundaries_map Expr.shape nonempty]
    omega

theorem Sound.solve_eq {operands : List (Expr α)} (h : Sound operands) : dimensionsOf operands >>= Tableau.solve =
    .ok (Tableau.ofDimensions (boundaries (operands.map Expr.shape))) := by
  have hpos := List.length_pos_iff.2 h.nonempty
  have hlength := length_boundaries_map Expr.shape h.nonempty
  rw [dimensionsOf_of_linked (linked_of_isChain h.chain h.nonempty) h.nonempty]
  exact Tableau.solve_eq_ok (by omega) h.nonneg

theorem exists_differ {operands : List (Expr α)} (h : ¬ operands.IsChain Meets) :
    ∃ before p o after, operands = before ++ p :: o :: after ∧ (before ++ [p]).IsChain Meets ∧ ¬ Meets p o := by
  induction operands using List.reverseRecOn with
  | nil => exact absurd .nil h
  | append_singleton init last ih =>
    by_cases hinit : init.IsChain Meets
    · rcases List.eq_nil_or_concat init with rfl | ⟨before, p, rfl⟩
      · exact absurd (.singleton _) h
      · rw [List.concat_eq_append] at hinit h ⊢
        refine ⟨before, p, last, [], by simp, hinit, fun hmeets => h ?_⟩
        rw [List.append_assoc, List.singleton_append, List.isChain_append_cons_cons]
        exact ⟨hinit, hmeets, .singleton _⟩
    · obtain ⟨before, p, o, after, rfl, hbefore, hdiffer⟩ := ih hinit
      exact ⟨before, p, o, after ++ [last], by simp, hbefore, hdiffer⟩

/-- Operands have tables, or else a flaw. -/
theorem sound_or_flawed (operands : List (Expr α)) : Sound operands ∨ ∃ chain, Flawed operands chain := by
  by_cases hne : operands = []
  · subst hne
    exact Or.inr ⟨_, .empty⟩
  by_cases hchain : operands.IsChain Meets
  · cases hfirst : (boundaries (operands.map Expr.shape)).find? (· < 0) with
    | none => exact Or.inl ⟨hne, hchain, by simpa using hfirst⟩
    | some d => exact Or.inr ⟨_, .negative hne hchain hfirst⟩
  · obtain ⟨before, p, o, after, rfl, hbefore, hdiffer⟩ := exists_differ hchain
    exact Or.inr ⟨_, .differ hbefore hdiffer⟩

/-- There is a flaw exactly if there is no operand, or one that does not meet the one before it, or if they all meet and
a boundary is negative. -/
theorem exists_flawed_iff {operands : List (Expr α)} : (∃ chain, Flawed operands chain) ↔
    operands = [] ∨ ¬ operands.IsChain Meets ∨
      (operands.IsChain Meets ∧ ∃ d ∈ boundaries (operands.map Expr.shape), d < 0) := by
  constructor
  · rintro ⟨_, h⟩
    cases h with
    | empty => exact Or.inl rfl
    | differ chain differ =>
      refine Or.inr (Or.inl fun h => differ ?_)
      rw [List.isChain_append_cons_cons] at h
      exact h.2.1
    | negative nonempty chain first =>
      have hd := List.find?_some first
      exact Or.inr (Or.inr ⟨chain, _, List.mem_of_find?_eq_some first, by simpa using hd⟩)
  · intro h
    rcases sound_or_flawed operands with hsound | hflawed
    · exfalso
      rcases h with rfl | hdiffer | ⟨_, d, hd, hnegative⟩
      · exact hsound.nonempty rfl
      · exact hdiffer hsound.chain
      · exact absurd (hsound.nonneg d hd) (Int.not_le.2 hnegative)
    · exact hflawed

end Chain
end MatrixChain
