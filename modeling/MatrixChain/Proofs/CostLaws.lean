import MatrixChain.Proofs.LeftmostBracketing
import Mathlib.Data.List.Forall2

/-!
# Laws of the least cost

How the entries of the cost table depend on the boundaries of the chain. A boundary that is zero makes all sub-chains
over it free, and nothing else does. From the other end a chain has the same costs, with the last of the cheapest splits
for the first of them. Larger boundaries never lower a cost. Each law compares bracketings, of which the table has the
least.
-/

namespace MatrixChain
namespace Chain

theorem boundary_toArray (dimensions : List Int) (i : Nat) :
    boundary dimensions.toArray i = dimensions[i]?.getD 0 := by
  rw [boundary, Array.getD_eq_getD_getElem?, List.getElem?_toArray]

theorem boundary_reverse {dimensions : List Int} {i : Nat} (h : i < dimensions.length) :
    boundary dimensions.reverse.toArray i = boundary dimensions.toArray (dimensions.length - 1 - i) := by
  rw [boundary_toArray, boundary_toArray, List.getElem?_reverse h]

theorem boundary_mono {p q : List Int} (h : List.Forall₂ (· ≤ ·) p q) (i : Nat) :
    boundary p.toArray i ≤ boundary q.toArray i := by
  rw [boundary_toArray, boundary_toArray]
  induction h generalizing i with
  | nil => exact Int.le_refl _
  | cons hle _ ih =>
    cases i with
    | zero => exact hle
    | succ i => exact ih i

end Chain

namespace Bracketing

open Chain

section ZeroBoundary

/-- Boundary `m` is one of the three of every join. -/
def Touches (m : Nat) : Bracketing → Prop
  | operand _ => True
  | join left right =>
    left.Touches m ∧ right.Touches m ∧ (m = left.first ∨ m = left.last + 1 ∨ m = right.last + 1)

theorem Touches.cost_eq_zero {dimensions : Array Int} {m : Nat} (zero : boundary dimensions m = 0) {b : Bracketing}
    (h : b.Touches m) : b.cost dimensions = 0 := by
  induction b with
  | operand i => rfl
  | join left right ihl ihr =>
    obtain ⟨hl, hr, hplace⟩ := h
    have hwork : joinWork dimensions left.first left.last right.last = 0 := by
      rcases hplace with rfl | rfl | rfl <;> simp [joinWork, zero]
    rw [cost, ihl hl, ihr hr, hwork]
    rfl

theorem exists_touches_first (first k : Nat) : ∃ b : Bracketing, b.Spans first (first + k) ∧ b.Touches first := by
  induction k with
  | zero => exact ⟨.operand first, .operand first, trivial⟩
  | succ k ih =>
    obtain ⟨b, hspans, htouches⟩ := ih
    exact ⟨.join b (.operand (first + k + 1)), .join hspans (.operand _), htouches, trivial, Or.inl hspans.first_eq.symm⟩

theorem exists_touches_last (first k : Nat) :
    ∃ b : Bracketing, b.Spans first (first + k) ∧ b.Touches (first + k + 1) := by
  induction k generalizing first with
  | zero => exact ⟨.operand first, .operand first, trivial⟩
  | succ k ih =>
    obtain ⟨b, hspans, htouches⟩ := ih (first + 1)
    rw [show first + 1 + k = first + (k + 1) by omega] at hspans htouches
    exact ⟨.join (.operand first) b, .join (.operand first) hspans, trivial, htouches,
      Or.inr (Or.inr (congrArg (· + 1) hspans.last_eq).symm)⟩

/-- Each boundary of a sub-chain is in all joins of one of its bracketings. -/
theorem exists_touches {first last m : Nat} (h : first ≤ last) (hfirst : first ≤ m) (hlast : m ≤ last + 1) :
    ∃ b : Bracketing, b.Spans first last ∧ b.Touches m := by
  rcases Nat.lt_or_eq_of_le hfirst with hlt | rfl
  · rcases Nat.lt_or_eq_of_le hlast with hgt | rfl
    · -- inside: what is before it ends there and what is behind it begins there
      obtain ⟨k, rfl⟩ := Nat.exists_eq_add_of_lt hlt
      obtain ⟨k', rfl⟩ := Nat.exists_eq_add_of_le (Nat.le_of_lt_succ hgt)
      obtain ⟨left, hl, hleft⟩ := exists_touches_last first k
      obtain ⟨right, hr, hright⟩ := exists_touches_first (first + k + 1) k'
      exact ⟨.join left right, .join hl hr, hleft, hright, Or.inr (Or.inl (congrArg (· + 1) hl.last_eq).symm)⟩
    · obtain ⟨k, rfl⟩ := Nat.exists_eq_add_of_le h
      exact exists_touches_last first k
  · obtain ⟨k, rfl⟩ := Nat.exists_eq_add_of_le h
    exact exists_touches_first first k

theorem Spans.cost_pos {dimensions : Array Int} (sound : ∀ i, 0 ≤ boundary dimensions i) {b : Bracketing}
    {first last : Nat} (h : b.Spans first last) (hlt : first < last)
    (positive : ∀ m, first ≤ m → m ≤ last + 1 → 0 < boundary dimensions m) : 0 < b.cost dimensions := by
  cases h with
  | operand => exact absurd hlt (Nat.lt_irrefl _)
  | @join left right first split last hl hr =>
    have hle := hl.le
    have hgt := hr.le
    have hwork : 0 < joinWork dimensions first split last :=
      Int.mul_pos (Int.mul_pos (positive first (by omega) (by omega)) (positive (split + 1) (by omega) (by omega)))
        (positive (last + 1) (by omega) (by omega))
    have hleft := cost_nonneg sound left
    have hright := cost_nonneg sound right
    rw [hl.cost_join hr]
    omega

end ZeroBoundary

section Mirror

/-- The bracketing from the other end of a chain whose last operand is `top`. -/
def mirror (top : Nat) : Bracketing → Bracketing
  | operand i => operand (top - i)
  | join left right => join (right.mirror top) (left.mirror top)

theorem Spans.mirror {top : Nat} {b : Bracketing} {first last : Nat} (h : b.Spans first last) (hlast : last ≤ top) :
    (b.mirror top).Spans (top - last) (top - first) := by
  induction h with
  | operand i => exact .operand (top - i)
  | @join left right first split last hl hr ihl ihr =>
    have hgt := hr.le
    have hleft := ihl (by omega)
    rw [show top - split = top - (split + 1) + 1 by omega] at hleft
    exact .join (ihr hlast) hleft

theorem joinWork_reverse {dimensions : List Int} {top first split last : Nat} (hlength : dimensions.length = top + 2)
    (hfirst : first ≤ split) (hsplit : split < last) (hlast : last ≤ top) :
    joinWork dimensions.reverse.toArray (top - last) (top - (split + 1)) (top - first) =
      joinWork dimensions.toArray first split last := by
  have hleft : boundary dimensions.reverse.toArray (top - last) = boundary dimensions.toArray (last + 1) :=
    (boundary_reverse (by omega)).trans (congrArg _ (by omega))
  have hmiddle : boundary dimensions.reverse.toArray (top - (split + 1) + 1) =
      boundary dimensions.toArray (split + 1) :=
    (boundary_reverse (by omega)).trans (congrArg _ (by omega))
  have hright : boundary dimensions.reverse.toArray (top - first + 1) = boundary dimensions.toArray first :=
    (boundary_reverse (by omega)).trans (congrArg _ (by omega))
  rw [joinWork, joinWork, hleft, hmiddle, hright, Int.mul_comm, Int.mul_comm (boundary _ (last + 1)), Int.mul_assoc]

theorem Spans.cost_mirror {dimensions : List Int} {top : Nat} (hlength : dimensions.length = top + 2) {b : Bracketing}
    {first last : Nat} (h : b.Spans first last) (hlast : last ≤ top) :
    (b.mirror top).cost dimensions.reverse.toArray = b.cost dimensions.toArray := by
  induction h with
  | operand i => rfl
  | @join left right first split last hl hr ihl ihr =>
    have hgt := hr.le
    rw [Bracketing.mirror, cost, ihl (by omega), ihr hlast, (hr.mirror hlast).first_eq, (hr.mirror hlast).last_eq,
      (hl.mirror (show split ≤ top by omega)).last_eq, joinWork_reverse hlength hl.le (by omega) hlast,
      hl.cost_join hr, Int.add_comm (right.cost _)]

end Mirror

/-- Larger boundaries make no bracketing cheaper. -/
theorem cost_mono {p q : Array Int} (sound : ∀ i, 0 ≤ boundary p i) (h : ∀ i, boundary p i ≤ boundary q i)
    (b : Bracketing) : b.cost p ≤ b.cost q := by
  induction b with
  | operand i => exact Int.le_refl _
  | join left right ihl ihr =>
    have nonneg : ∀ i, 0 ≤ boundary q i := fun i => (sound i).trans (h i)
    have hinner := Int.mul_le_mul (h left.first) (h (left.last + 1)) (sound _) (nonneg _)
    have hwork : joinWork p left.first left.last right.last ≤ joinWork q left.first left.last right.last :=
      Int.mul_le_mul hinner (h (right.last + 1)) (sound _) (Int.mul_nonneg (nonneg _) (nonneg _))
    rw [cost, cost]
    omega

end Bracketing

namespace Tableau

open Chain

section Solved

variable (dimensions : List Int) {first last : Nat}

/-- A sub-chain of two operands or more is free exactly if it has a boundary that is zero. -/
theorem costOf_eq_zero_iff (sound : ∀ d ∈ dimensions, 0 ≤ d) (h : first < last) (hlast : last < dimensions.length - 1) :
    (ofDimensions dimensions).costOf first last = 0 ↔
      ∃ m, first ≤ m ∧ m ≤ last + 1 ∧ boundary dimensions.toArray m = 0 := by
  have hle := Nat.le_of_lt h
  constructor
  · intro hfree
    by_contra hnone
    have hpositive : ∀ m, first ≤ m → m ≤ last + 1 → 0 < boundary dimensions.toArray m := fun m hm hm' =>
      lt_of_le_of_ne (boundary_nonneg sound m) fun hzero => hnone ⟨m, hm, hm', hzero.symm⟩
    have hcost := (spans_bracketing dimensions hle hlast).cost_pos (boundary_nonneg sound) h hpositive
    rw [cost_bracketing dimensions hle hlast] at hcost
    exact absurd hfree (Int.ne_of_gt hcost)
  · rintro ⟨m, hfirst, hm, hzero⟩
    obtain ⟨b, hspans, htouches⟩ := Bracketing.exists_touches hle hfirst hm
    have hcost := costOf_le_cost dimensions hspans hlast
    rw [htouches.cost_eq_zero hzero] at hcost
    exact Int.le_antisymm hcost (costOf_nonneg dimensions sound first last)

/-- Where splits of a sub-chain are cheapest. -/
def CutsCheapest (t : Tableau) (first last : Nat) : Set Nat :=
  {split | first ≤ split ∧ split < last ∧ t.splitCost first split last = t.costOf first last}

theorem exists_split_isLeast (h : first < last) (hlast : last < dimensions.length - 1) :
    ∃ split : Nat, entryAt? (ofDimensions dimensions).splits first last = some (split : Int) ∧
      IsLeast ((ofDimensions dimensions).CutsCheapest first last) split := by
  obtain ⟨split, hentry, hle, hgt, hcost, _, hbefore⟩ := splitOf_spec dimensions h hlast
  refine ⟨split, hentry, ⟨hle, hgt, hcost.symm⟩, fun other ⟨hother, _, hcheapest⟩ => Nat.not_lt.1 fun hlt => ?_⟩
  exact absurd hcheapest.symm (Int.ne_of_lt (hbefore other hother hlt))

end Solved

section Mirror

variable {dimensions : List Int} {top first last : Nat} (hlength : dimensions.length = top + 2)
include hlength

theorem costOf_reverse_le (h : first ≤ last) (hlast : last ≤ top) :
    (ofDimensions dimensions.reverse).costOf (top - last) (top - first) ≤
      (ofDimensions dimensions).costOf first last := by
  have hinside : last < dimensions.length - 1 := by omega
  have hmirrored : top - first < dimensions.reverse.length - 1 := by rw [List.length_reverse]; omega
  have hspans := spans_bracketing dimensions h hinside
  have hcost := costOf_le_cost dimensions.reverse (hspans.mirror hlast) hmirrored
  rwa [hspans.cost_mirror hlength hlast, cost_bracketing dimensions h hinside] at hcost

theorem costOf_reverse (h : first ≤ last) (hlast : last ≤ top) :
    (ofDimensions dimensions.reverse).costOf (top - last) (top - first) =
      (ofDimensions dimensions).costOf first last := by
  have hback : (ofDimensions dimensions.reverse.reverse).costOf (top - (top - first)) (top - (top - last)) ≤
      (ofDimensions dimensions.reverse).costOf (top - last) (top - first) :=
    costOf_reverse_le (by rwa [List.length_reverse]) (by omega) (by omega)
  rw [List.reverse_reverse, show top - (top - first) = first by omega, show top - (top - last) = last by omega] at hback
  exact Int.le_antisymm (costOf_reverse_le hlength h hlast) hback

theorem splitCost_reverse {split : Nat} (hfirst : first ≤ split) (hsplit : split < last) (hlast : last ≤ top) :
    (ofDimensions dimensions.reverse).splitCost (top - last) (top - (split + 1)) (top - first) =
      (ofDimensions dimensions).splitCost first split last := by
  have hright := costOf_reverse hlength (show split + 1 ≤ last by omega) hlast
  have hleft := costOf_reverse hlength hfirst (show split ≤ top by omega)
  have hwork := Bracketing.joinWork_reverse hlength hfirst hsplit hlast
  rw [show top - split = top - (split + 1) + 1 by omega] at hleft
  simp only [splitCost, hleft, hright, Int.add_comm ((ofDimensions dimensions).costOf (split + 1) last)]
  exact congrArg _ hwork

theorem mem_cutsCheapest_reverse {split : Nat} (hsplit : split < last) (hlast : last ≤ top) :
    top - (split + 1) ∈ (ofDimensions dimensions.reverse).CutsCheapest (top - last) (top - first) ↔
      split ∈ (ofDimensions dimensions).CutsCheapest first last := by
  by_cases hfirst : first ≤ split
  · simp only [CutsCheapest, Set.mem_ofPred_eq, splitCost_reverse hlength hfirst hsplit hlast,
      costOf_reverse hlength (show first ≤ last by omega) hlast]
    omega
  · simp only [CutsCheapest, Set.mem_ofPred_eq]
    omega

/-- From the other end the table has the last of the cheapest splits. -/
theorem exists_split_reverse_isGreatest (h : first < last) (hlast : last ≤ top) :
    ∃ split : Nat,
      entryAt? (ofDimensions dimensions.reverse).splits (top - last : Nat) (top - first : Nat) = some (split : Int) ∧
        IsGreatest ((ofDimensions dimensions).CutsCheapest first last) (top - (split + 1)) := by
  have hreverse := (List.length_reverse : dimensions.reverse.length = _)
  obtain ⟨split, hentry, hmem, hleast⟩ := exists_split_isLeast dimensions.reverse
    (show top - last < top - first by omega) (by omega)
  have hfirst := hmem.1
  have hbelow := hmem.2.1
  refine ⟨split, hentry, ?_, fun other hother => ?_⟩
  · rw [← mem_cutsCheapest_reverse hlength (by omega) hlast]
    rwa [show top - (top - (split + 1) + 1) = split by omega]
  · have hinside := hother.2.1
    have hle := hleast ((mem_cutsCheapest_reverse hlength hinside hlast).2 hother)
    omega

end Mirror

/-- The sub-chains of two operands or more that cost nothing are those with a zero among their boundaries, wherever it
stands. -/
theorem solve_free_iff {dimensions : List Int} (operand : 2 ≤ dimensions.length) (sound : ∀ d ∈ dimensions, 0 ≤ d) :
    ∃ t, solve dimensions = .ok t ∧ t.dimensions = dimensions ∧
      ∀ first last : Nat, first < last → last < t.length → ∃ cost, entryAt? t.costs first last = some cost ∧
        (cost = 0 ↔ ∃ m, first ≤ m ∧ m ≤ last + 1 ∧ dimensions[m]? = some 0) := by
  refine ⟨_, solve_eq_ok operand sound, rfl, fun first last h hlast => ?_⟩
  rw [length_ofDimensions] at hlast
  refine ⟨_, entryAt?_costs dimensions (by omega) hlast, (costOf_eq_zero_iff dimensions sound h hlast).trans ?_⟩
  refine exists_congr fun m => and_congr_right fun _ => and_congr_right fun hm => ?_
  have hinside : m < dimensions.length := by omega
  rw [boundary_toArray, List.getElem?_eq_getElem hinside, Option.getD_some, Option.some_inj]

theorem solve_free_iff_of_emptyInside :
    2 ≤ [3, 4, 0, 5, 6, 7].length ∧ (∀ d ∈ [3, 4, 0, 5, 6, 7], (0 : Int) ≤ d) ∧
      ∃ t, solve [3, 4, 0, 5, 6, 7] = .ok t ∧ entryAt? t.costs 0 4 = some 0 ∧ entryAt? t.costs 3 4 = some 210 ∧
        ¬∃ m, 3 ≤ m ∧ m ≤ 5 ∧ [(3 : Int), 4, 0, 5, 6, 7][m]? = some 0 := by
  have operand : 2 ≤ [3, 4, 0, 5, 6, 7].length := by decide
  have sound : ∀ d ∈ [3, 4, 0, 5, 6, 7], (0 : Int) ≤ d := by decide
  obtain ⟨t, ht, _, hfree⟩ := solve_free_iff operand sound
  obtain rfl := Except.ok.inj ((solve_eq_ok operand sound).symm.trans ht)
  obtain ⟨whole, hwhole, hzero⟩ := hfree 0 4 (by decide) (by decide)
  obtain rfl := hzero.2 ⟨2, by decide, by decide, rfl⟩
  obtain ⟨cost, hcost, hpositive⟩ := hfree 3 4 (by decide) (by decide)
  have hentry : entryAt? (ofDimensions [3, 4, 0, 5, 6, 7]).costs 3 4 = some 210 := by decide
  obtain rfl := Option.some.inj (hentry.symm.trans hcost)
  exact ⟨operand, sound, _, ht, hwhole, hentry, fun h => absurd (hpositive.2 h) (by decide)⟩

/-- What the tables of a chain and of the same chain from its other end have in common: the costs, and the cheapest
splits, of which each table has the first from its own end. -/
structure Mirrors (t t' : Tableau) : Prop where
  length : t'.length = t.length
  cost : t'.cost = t.cost
  costs : ∀ first last : Nat, first ≤ last → last < t.length → ∃ cost,
    entryAt? t'.costs first last = some cost ∧
      entryAt? t.costs (t.length - 1 - last : Nat) (t.length - 1 - first : Nat) = some cost
  splits : ∀ first last : Nat, first < last → last < t.length → ∃ split split' : Nat,
    entryAt? t.splits first last = some (split : Int) ∧
      entryAt? t'.splits (t.length - 1 - last : Nat) (t.length - 1 - first : Nat) = some (split' : Int) ∧
      IsLeast (t.CutsCheapest first last) split ∧ IsGreatest (t.CutsCheapest first last) (t.length - 2 - split')

theorem mirrors_ofDimensions {dimensions : List Int} (operand : 2 ≤ dimensions.length) :
    (ofDimensions dimensions).Mirrors (ofDimensions dimensions.reverse) := by
  obtain ⟨top, htop⟩ := Nat.exists_eq_add_of_le' operand
  have hlength : (ofDimensions dimensions).length = top + 1 := by rw [length_ofDimensions, htop]; rfl
  have hlength' : (ofDimensions dimensions.reverse).length = top + 1 := by
    rw [length_ofDimensions, List.length_reverse, htop]
    rfl
  have hreverse : dimensions.reverse.length - 1 = top + 1 := hlength'
  constructor
  case length => exact hlength'.trans hlength.symm
  case cost =>
    have hwhole := costOf_reverse htop (Nat.zero_le top) (Nat.le_refl top)
    rw [Nat.sub_self] at hwhole
    rw [Tableau.cost, Tableau.cost, hlength, hlength']
    exact hwhole
  case costs =>
    intro first last h hlast
    rw [hlength] at hlast ⊢
    have hsame := costOf_reverse htop (show top - last ≤ top - first by omega) (Nat.sub_le top first)
    rw [show top - (top - first) = first by omega, show top - (top - last) = last by omega] at hsame
    refine ⟨_, entryAt?_costs dimensions.reverse (by omega) (by omega), ?_⟩
    rw [hsame]
    exact entryAt?_costs dimensions (by omega) (by omega)
  case splits =>
    intro first last h hlast
    rw [hlength] at hlast ⊢
    obtain ⟨split, hentry, hleast⟩ := exists_split_isLeast dimensions h (by omega)
    obtain ⟨split', hentry', hgreatest⟩ := exists_split_reverse_isGreatest htop h (by omega)
    refine ⟨split, split', hentry, hentry', hleast, ?_⟩
    rwa [show top + 1 - 2 - split' = top - (split' + 1) by omega]

/-- From its other end a chain has the mirrored costs, while the splits that are chosen need not be mirrored. -/
theorem solve_reverse :
    (∀ dimensions : List Int, 2 ≤ dimensions.length → (∀ d ∈ dimensions, 0 ≤ d) →
      ∃ t t', solve dimensions = .ok t ∧ solve dimensions.reverse = .ok t' ∧ t.dimensions = dimensions ∧ t.Mirrors t') ∧
    ∃ dimensions t t', solve dimensions = .ok t ∧ solve dimensions.reverse = .ok t' ∧
      ∃ first last split split' : Nat, first < last ∧ last < t.length ∧
        entryAt? t.splits first last = some (split : Int) ∧
        entryAt? t'.splits (t.length - 1 - last : Nat) (t.length - 1 - first : Nat) = some (split' : Int) ∧
        split ≠ t.length - 2 - split' := by
  refine ⟨fun dimensions operand sound => ?_, [2, 2, 2, 2], _, _, rfl, rfl, 0, 2, 0, 0, by decide, by decide, by decide,
    by decide, by decide⟩
  have operand' : 2 ≤ dimensions.reverse.length := by rwa [List.length_reverse]
  have sound' : ∀ d ∈ dimensions.reverse, 0 ≤ d := fun d hd => sound d (List.mem_reverse.1 hd)
  exact ⟨_, _, solve_eq_ok operand sound, solve_eq_ok operand' sound', rfl, mirrors_ofDimensions operand⟩

theorem solve_reverse_of_fourOperands :
    2 ≤ [3, 1, 2, 5, 4].length ∧ (∀ d ∈ [3, 1, 2, 5, 4], (0 : Int) ≤ d) ∧
      ∃ t t', solve [3, 1, 2, 5, 4] = .ok t ∧ solve [4, 5, 2, 1, 3] = .ok t' ∧ t.Mirrors t' ∧ t'.cost = 42 ∧
        entryAt? t'.costs 0 2 = some 30 ∧ entryAt? t.costs 1 3 = some 30 := by
  have operand : 2 ≤ [3, 1, 2, 5, 4].length := by decide
  have sound : ∀ d ∈ [3, 1, 2, 5, 4], (0 : Int) ≤ d := by decide
  obtain ⟨t, t', ht, ht', _, hmirrors⟩ := solve_reverse.1 _ operand sound
  obtain rfl := Except.ok.inj ((solve_eq_ok operand sound).symm.trans ht)
  obtain ⟨cost, hcost', hcost⟩ := hmirrors.costs 0 2 (by decide) (by decide)
  have hentry : entryAt? (ofDimensions [3, 1, 2, 5, 4]).costs 1 3 = some 30 := by decide
  obtain rfl := Option.some.inj (hentry.symm.trans hcost)
  exact ⟨operand, sound, _, t', ht, ht', hmirrors, hmirrors.cost.trans (by decide), hcost', hentry⟩

theorem costOf_mono {p q : List Int} (sound : ∀ d ∈ p, 0 ≤ d) (h : List.Forall₂ (· ≤ ·) p q) {first last : Nat}
    (hle : first ≤ last) (hlast : last < p.length - 1) :
    (ofDimensions p).costOf first last ≤ (ofDimensions q).costOf first last := by
  have hlast' : last < q.length - 1 := h.length_eq ▸ hlast
  -- the bracketing that is cheapest over the larger boundaries need not be so over the smaller ones
  calc (ofDimensions p).costOf first last
      ≤ ((ofDimensions q).bracketing first last).cost p.toArray := costOf_le_cost p (spans_bracketing q hle hlast') hlast
    _ ≤ ((ofDimensions q).bracketing first last).cost q.toArray :=
      Bracketing.cost_mono (boundary_nonneg sound) (boundary_mono h) _
    _ = (ofDimensions q).costOf first last := cost_bracketing q hle hlast'

theorem nonneg_of_forall₂ {p q : List Int} (sound : ∀ d ∈ p, 0 ≤ d) (h : List.Forall₂ (· ≤ ·) p q) :
    ∀ d ∈ q, 0 ≤ d := by
  induction h with
  | nil => exact List.forall_mem_nil _
  | cons hle _ ih =>
    rw [List.forall_mem_cons] at sound ⊢
    exact ⟨sound.1.trans hle, ih sound.2⟩

theorem cheapest_narrow : cheapest [2, 1, 2, 2] = .join (.operand 0) (.join (.operand 1) (.operand 2)) :=
  bracketing_eq (.join (.operand 0) (.join (.operand 1) (.operand 2))) (by decide)

theorem cheapest_wide : cheapest [2, 3, 2, 2] = .join (.join (.operand 0) (.operand 1)) (.operand 2) :=
  bracketing_eq (.join (.join (.operand 0) (.operand 1)) (.operand 2)) (by decide)

/-- No cost falls when boundaries grow, even where the trees that the operands are associated to agree in no split. -/
theorem solve_mono :
    (∀ p q : List Int, 2 ≤ p.length → (∀ d ∈ p, 0 ≤ d) → List.Forall₂ (· ≤ ·) p q →
      ∃ t t', solve p = .ok t ∧ solve q = .ok t' ∧ t.dimensions = p ∧ t'.dimensions = q ∧
        ∀ first last : Nat, first ≤ last → last < t.length → ∃ cost cost',
          entryAt? t.costs first last = some cost ∧ entryAt? t'.costs first last = some cost' ∧ cost ≤ cost') ∧
    ∃ p q t t' b b', solve p = .ok t ∧ solve q = .ok t' ∧ List.Forall₂ (· ≤ ·) p q ∧
      t.associate (operandTrees t.length) (fun left right => pure (.join left right)) =
        (.ok b : Except Fault Bracketing) ∧
      t'.associate (operandTrees t'.length) (fun left right => pure (.join left right)) =
        (.ok b' : Except Fault Bracketing) ∧
      3 ≤ t.length ∧ List.Forall₂ (· ≠ ·) b.splits b'.splits := by
  constructor
  · intro p q operand sound h
    have operand' : 2 ≤ q.length := h.length_eq ▸ operand
    refine ⟨_, _, solve_eq_ok operand sound, solve_eq_ok operand' (nonneg_of_forall₂ sound h), rfl, rfl,
      fun first last hle hlast => ?_⟩
    rw [length_ofDimensions] at hlast
    have hlast' : last < q.length - 1 := h.length_eq ▸ hlast
    exact ⟨_, _, entryAt?_costs p (by omega) hlast, entryAt?_costs q (by omega) hlast', costOf_mono sound h hle hlast⟩
  · refine ⟨[2, 1, 2, 2], [2, 3, 2, 2], _, _, _, _, rfl, rfl, by simp, associate_operandTrees (by decide),
      associate_operandTrees (by decide), by decide, ?_⟩
    rw [cheapest_narrow, cheapest_wide]
    simp [Bracketing.splits, Bracketing.last]

theorem solve_mono_of_wideInside :
    2 ≤ [2, 1, 2, 2].length ∧ (∀ d ∈ [2, 1, 2, 2], (0 : Int) ≤ d) ∧
      List.Forall₂ (· ≤ ·) [(2 : Int), 1, 2, 2] [2, 3, 2, 2] ∧
      ∃ t t', solve [2, 1, 2, 2] = .ok t ∧ solve [2, 3, 2, 2] = .ok t' ∧
        ∃ cost cost', entryAt? t.costs 0 2 = some cost ∧ entryAt? t'.costs 0 2 = some cost' ∧ cost ≤ cost' ∧
          cost = 8 ∧ cost' = 20 := by
  have operand : 2 ≤ [2, 1, 2, 2].length := by decide
  have sound : ∀ d ∈ [2, 1, 2, 2], (0 : Int) ≤ d := by decide
  have larger : List.Forall₂ (· ≤ ·) [(2 : Int), 1, 2, 2] [2, 3, 2, 2] := by simp
  obtain ⟨t, t', ht, ht', _, _, hcosts⟩ := solve_mono.1 _ _ operand sound larger
  obtain rfl := Except.ok.inj ((solve_eq_ok operand sound).symm.trans ht)
  obtain rfl := Except.ok.inj ((solve_eq_ok operand (nonneg_of_forall₂ sound larger)).symm.trans ht')
  obtain ⟨cost, cost', hcost, hcost', hle⟩ := hcosts 0 2 (by decide) (by decide)
  have hnarrow : (8 : Int) = cost := Option.some.inj (Eq.trans (by decide) hcost)
  have hwide : (20 : Int) = cost' := Option.some.inj (Eq.trans (by decide) hcost')
  exact ⟨operand, sound, larger, _, _, ht, ht', cost, cost', hcost, hcost', hle, hnarrow.symm, hwide.symm⟩

end Tableau
end MatrixChain
