import MatrixChain.Proofs.CheapestBracketing
import MatrixChain.Proofs.Run
import MatrixChain.Proofs.Skeleton

/-!
# The cheapest arrangement of a skeleton

Every maximal run of products is put together along the cheapest bracketing of its boundaries, the atoms and sums under
it being arranged first. The outcome is a reassociation that all reassociations of a skeleton have in common, and no
skeleton costs less than its own arrangement.
-/

namespace MatrixChain
namespace Skeleton

open Chain

variable {β : Type}

section Assembly

variable (extent : β → Shape) (value : Nat → Skeleton β)

theorem assemble_reassociated {b : Bracketing} {first : Skeleton β} {rest : List (Skeleton β)}
    (h : b.operands.map value = first :: rest) :
    Reassociated (b.assemble value .product) (comb first rest) := by
  induction b generalizing first rest with
  | operand i =>
    obtain ⟨rfl, rfl⟩ := List.cons.inj h
    exact .refl _
  | join left right ihl ihr =>
    obtain ⟨x, xs, hleft⟩ := left.exists_map_operands value
    obtain ⟨y, ys, hright⟩ := right.exists_map_operands value
    rw [Bracketing.operands, List.map_append, hleft, hright] at h
    obtain ⟨rfl, rfl⟩ := List.cons.inj h
    exact (Reassociated.product (ihl hleft) (ihr hright)).trans (product_comb ..)

/-- The shape and the cost of a product along a bracketing: the joins cost what the bracketing costs. -/
theorem shape_cost_assemble {p : Array Int} {b : Bracketing} {i j : Nat} (h : b.Spans i j)
    (fits : ∀ m, i ≤ m → m ≤ j → (value m).shape extent = ⟨boundary p m, boundary p (m + 1)⟩) :
    (b.assemble value .product).shape extent = ⟨boundary p i, boundary p (j + 1)⟩ ∧
      (b.assemble value .product).cost extent =
        b.cost p + total (b.operands.map fun m => (value m).cost extent) := by
  induction h with
  | operand i =>
    refine ⟨fits i (Nat.le_refl i) (Nat.le_refl i), ?_⟩
    simp [Bracketing.assemble, Bracketing.cost, Bracketing.operands]
  | @join left right first split last hl hr ihl ihr =>
    have hle := hl.le
    have hgt := hr.le
    obtain ⟨hshape, hcost⟩ := ihl fun m hm hm' => fits m hm (by omega)
    obtain ⟨hshape', hcost'⟩ := ihr fun m hm hm' => fits m (by omega) hm'
    constructor
    · rw [Bracketing.assemble, shape, hshape, hshape']
      rfl
    · have hwork : (Shape.mk (boundary p first) (boundary p (split + 1))).work
          ⟨boundary p (split + 1), boundary p (last + 1)⟩ = joinWork p first split last := rfl
      rw [Bracketing.assemble, cost, hcost, hcost', hshape, hshape', hwork, hl.cost_join hr, Bracketing.operands,
        List.map_append, total_append]
      omega

theorem atoms_assemble (b : Bracketing) :
    (b.assemble value .product).atoms = (b.operands.map value).flatMap atoms := by
  induction b with
  | operand i => exact (List.flatMap_singleton ..).symm
  | join left right ihl ihr =>
    rw [Bracketing.assemble, atoms, ihl, ihr, Bracketing.operands, List.map_append, List.flatMap_append]

end Assembly

section Regrouping

variable [Inhabited β] (extent : β → Shape)

/-- The product of operands along the cheapest bracketing of their boundaries. -/
def regrouped (operands : List (Skeleton β)) : Skeleton β :=
  (Tableau.cheapest (boundaries (operands.map (shape extent)))).assemble
    (fun i => operands.getD i (.atom default)) .product

@[simp] theorem regrouped_singleton (s : Skeleton β) : regrouped extent [s] = s := by
  have h : Tableau.cheapest (boundaries [s.shape extent]) = .operand 0 := Tableau.bracketing_self _ 0
  rw [regrouped, List.map_singleton, h]
  rfl

theorem graft_regrouped (f : β → Skeleton β) (outside : f default = .atom default) {items : List β}
    (shapes : (items.map f).map (shape extent) = items.map extent) :
    (regrouped extent (items.map atom)).graft f = regrouped extent (items.map f) := by
  rw [regrouped, regrouped, shapes, map_shape_atom]
  refine (Bracketing.apply_assemble (f := graft f) (fun _ _ => rfl) _).trans ?_
  congr 1
  funext i
  by_cases hi : i < items.length
  · simp [hi, graft]
  · simp [Nat.not_lt.1 hi, graft, outside]

theorem shape_getD_of_linked {extent : β → Shape} {operands : List (Skeleton β)} {rows cols : Int}
    (linked : Linked rows (operands.map (shape extent)) cols) {m : Nat} (hm : m < operands.length) :
    (operands.getD m (.atom default)).shape extent =
      ⟨boundary (boundaries (operands.map (shape extent))).toArray m,
        boundary (boundaries (operands.map (shape extent))).toArray (m + 1)⟩ := by
  have hfit := linked.fits_boundaries.getElem (show m < (operands.map (shape extent)).length by simpa using hm)
  simpa [hm] using hfit

section Operands

variable {operands : List (Skeleton β)} (hne : operands ≠ [])
include hne

theorem operands_cheapest :
    (Tableau.cheapest (boundaries (operands.map (shape extent)))).operands.map
      (fun i => operands.getD i (.atom default)) = operands := by
  have hpos := List.length_pos_iff.2 hne
  have hlength := length_boundaries_map (shape extent) hne
  have hspans := Tableau.cheapest_spans (show 2 ≤ (boundaries (operands.map (shape extent))).length by omega)
  rw [hlength] at hspans
  exact hspans.map_getD_operands hne _

theorem atoms_regrouped : (regrouped extent operands).atoms = operands.flatMap atoms := by
  rw [regrouped, atoms_assemble, operands_cheapest extent hne]

theorem regrouped_reassociated {first : Skeleton β} {rest : List (Skeleton β)} (h : operands = first :: rest) :
    Reassociated (regrouped extent operands) (comb first rest) :=
  assemble_reassociated _ ((operands_cheapest extent hne).trans h)

theorem shape_cost_regrouped {rows cols : Int} (linked : Linked rows (operands.map (shape extent)) cols) :
    (regrouped extent operands).shape extent = ⟨rows, cols⟩ ∧
      (regrouped extent operands).cost extent =
        (Tableau.ofDimensions (boundaries (operands.map (shape extent)))).cost +
          total (operands.map (cost extent)) := by
  have hpos := List.length_pos_iff.2 hne
  have hlength := length_boundaries_map (shape extent) hne
  have htwo : 2 ≤ (boundaries (operands.map (shape extent))).length := by omega
  have hspans := Tableau.cheapest_spans htwo
  rw [hlength] at hspans
  obtain ⟨hshape, hcost⟩ := shape_cost_assemble extent _ hspans fun m _ hm =>
    shape_getD_of_linked linked (show m < operands.length by omega)
  obtain ⟨hrows, hcols⟩ := linked.ends linked.fits_boundaries (by simpa using hne)
  have hlast : operands.length + 1 - 2 + 1 = 0 + (operands.map (shape extent)).length := by
    rw [List.length_map]
    omega
  have hoperands := congrArg (List.map (cost extent)) (operands_cheapest extent hne)
  rw [List.map_map] at hoperands
  constructor
  · rw [regrouped, hshape, hlast, ← hrows, ← hcols]
  · rw [regrouped, hcost, Tableau.cost_cheapest htwo]
    exact congrArg (fun costs => _ + total costs) hoperands

theorem cost_regrouped_le {rows cols : Int} (linked : Linked rows (operands.map (shape extent)) cols)
    {b : Bracketing} (h : b.Spans 0 (operands.length - 1)) :
    (regrouped extent operands).cost extent ≤
      b.cost (boundaries (operands.map (shape extent))).toArray + total (operands.map (cost extent)) := by
  have hpos := List.length_pos_iff.2 hne
  have hlength := length_boundaries_map (shape extent) hne
  have hlast : operands.length - 1 = (boundaries (operands.map (shape extent))).length - 2 := by omega
  rw [hlast] at h
  have hleast := Tableau.cost_le_cost (by omega) h
  rw [(shape_cost_regrouped extent hne linked).2]
  exact Int.add_le_add_right hleast _

end Operands

theorem regrouped_atoms {items : List β} (hne : items ≠ []) {rows cols : Int}
    (linked : Linked rows (items.map extent) cols) :
    (regrouped extent (items.map atom)).atoms = items ∧
      (regrouped extent (items.map atom)).shape extent = ⟨rows, cols⟩ ∧
      (regrouped extent (items.map atom)).cost extent =
        (Tableau.ofDimensions (boundaries (items.map extent))).cost := by
  have hatoms : (items.map atom : List (Skeleton β)) ≠ [] := by simpa using hne
  rw [← map_shape_atom] at linked
  obtain ⟨hshape, hcost⟩ := shape_cost_regrouped extent hatoms linked
  refine ⟨?_, hshape, ?_⟩
  · rw [atoms_regrouped extent hatoms, List.flatMap_map]
    exact List.flatMap_singleton' items
  · rw [hcost, map_shape_atom, total_cost_atom, Int.add_zero]

end Regrouping

section Arrangement

variable [Inhabited β] (extent : β → Shape)

/-- The operands of the run that a tree begins, with the runs inside of sums regrouped. -/
def arrangedFactors : Skeleton β → List (Skeleton β)
  | atom a => [.atom a]
  | product left right => left.arrangedFactors ++ right.arrangedFactors
  | sum left right => [.sum (regrouped extent left.arrangedFactors) (regrouped extent right.arrangedFactors)]

/-- The tree with every run regrouped. -/
def arranged (s : Skeleton β) : Skeleton β :=
  regrouped extent (s.arrangedFactors extent)

@[simp] theorem arranged_atom (a : β) : (atom a).arranged extent = .atom a :=
  regrouped_singleton extent _

@[simp] theorem arranged_sum (left right : Skeleton β) :
    (sum left right).arranged extent = .sum (left.arranged extent) (right.arranged extent) :=
  regrouped_singleton extent _

theorem arrangedFactors_ne_nil (s : Skeleton β) : s.arrangedFactors extent ≠ [] := by
  induction s with
  | atom a => simp [arrangedFactors]
  | product left right ihl _ => simp [arrangedFactors, ihl]
  | sum left right _ _ => simp [arrangedFactors]

/-- A tree is the product of the operands that it is arranged from, in some association. -/
theorem comb_arrangedFactors {s first : Skeleton β} {rest : List (Skeleton β)}
    (h : s.arrangedFactors extent = first :: rest) : Reassociated (comb first rest) s := by
  induction s generalizing first rest with
  | atom a =>
    obtain ⟨rfl, rfl⟩ := List.cons.inj h
    exact .refl _
  | product left right ihl ihr =>
    obtain ⟨x, xs, hleft⟩ := List.exists_cons_of_ne_nil (arrangedFactors_ne_nil extent left)
    obtain ⟨y, ys, hright⟩ := List.exists_cons_of_ne_nil (arrangedFactors_ne_nil extent right)
    rw [arrangedFactors, hleft, hright] at h
    obtain ⟨rfl, rfl⟩ := List.cons.inj h
    exact (product_comb ..).symm.trans (.product (ihl hleft) (ihr hright))
  | sum left right ihl ihr =>
    obtain ⟨x, xs, hleft⟩ := List.exists_cons_of_ne_nil (arrangedFactors_ne_nil extent left)
    obtain ⟨y, ys, hright⟩ := List.exists_cons_of_ne_nil (arrangedFactors_ne_nil extent right)
    have hl := regrouped_reassociated extent (arrangedFactors_ne_nil extent left) hleft
    have hr := regrouped_reassociated extent (arrangedFactors_ne_nil extent right) hright
    rw [arrangedFactors] at h
    obtain ⟨rfl, rfl⟩ := List.cons.inj h
    exact .sum (hl.trans (ihl hleft)) (hr.trans (ihr hright))

theorem arranged_reassociated (s : Skeleton β) : Reassociated (s.arranged extent) s := by
  obtain ⟨first, rest, h⟩ := List.exists_cons_of_ne_nil (arrangedFactors_ne_nil extent s)
  exact (regrouped_reassociated extent (arrangedFactors_ne_nil extent s) h).trans (comb_arrangedFactors extent h)

/-- What a tree is arranged from does not depend on its association. -/
theorem Reassociated.arrangedFactors_eq {s t : Skeleton β} (h : Reassociated s t) :
    s.arrangedFactors extent = t.arrangedFactors extent := by
  induction h with
  | refl => rfl
  | symm _ ih => exact ih.symm
  | trans _ _ ih ih' => exact ih.trans ih'
  | product _ _ ihl ihr => rw [arrangedFactors, arrangedFactors, ihl, ihr]
  | sum _ _ ihl ihr => rw [arrangedFactors, arrangedFactors, ihl, ihr]
  | assoc a b c => simp only [arrangedFactors, List.append_assoc]

theorem arranged_eq_iff (s t : Skeleton β) : s.arranged extent = t.arranged extent ↔ Reassociated s t := by
  constructor
  · intro h
    have hs := arranged_reassociated extent s
    rw [h] at hs
    exact hs.symm.trans (arranged_reassociated extent t)
  · intro h
    rw [arranged, arranged, h.arrangedFactors_eq]

theorem arranged_arranged (s : Skeleton β) : (s.arranged extent).arranged extent = s.arranged extent :=
  (arranged_eq_iff extent _ _).2 (arranged_reassociated extent s)

theorem linked_arrangedFactors {s : Skeleton β} (h : s.Sound extent) :
    Linked (s.shape extent).rows ((s.arrangedFactors extent).map (shape extent)) (s.shape extent).cols := by
  induction s with
  | atom a => exact linked_singleton _
  | product left right ihl ihr =>
    obtain ⟨hl, hr, hinner⟩ := h
    have hright := ihr hr
    rw [← hinner] at hright
    rw [arrangedFactors, List.map_append]
    exact (ihl hl).append hright
  | sum left right _ _ =>
    have hshape := (arranged_reassociated extent left).shape_eq extent
    rw [arrangedFactors, List.map_singleton, shape, shape]
    rw [arranged] at hshape
    rw [hshape]
    exact linked_singleton _

theorem map_arrangedFactors_ne_nil (s : Skeleton β) : (s.arrangedFactors extent).map (shape extent) ≠ [] := by
  simpa using arrangedFactors_ne_nil extent s

/-- The association of a tree is a bracketing `b` of the operands that it is arranged from, which stand in a chain from
number `i` on, and the tree costs no less than these operands do along `b`. -/
def Bracketed (s : Skeleton β) : Prop :=
  ∀ (p : Array Int) (i : Nat), Fits (boundary p) i ((s.arrangedFactors extent).map (shape extent)) →
    ∃ b : Bracketing, b.Spans i (i + (s.arrangedFactors extent).length - 1) ∧
      b.cost p + total ((s.arrangedFactors extent).map (cost extent)) ≤ s.cost extent

theorem cost_arranged_le_of_bracketed {s : Skeleton β} (h : s.Sound extent) (bracketed : s.Bracketed extent) :
    (s.arranged extent).cost extent ≤ s.cost extent := by
  have linked := linked_arrangedFactors extent h
  obtain ⟨b, hb, hcost⟩ := bracketed _ 0 linked.fits_boundaries
  rw [Nat.zero_add] at hb
  exact (cost_regrouped_le extent (arrangedFactors_ne_nil extent s) linked hb).trans hcost

theorem bracketed_product {left right : Skeleton β} (h : (product left right).Sound extent)
    (ihl : left.Bracketed extent) (ihr : right.Bracketed extent) : (product left right).Bracketed extent := by
  intro p i fits
  rw [arrangedFactors, List.map_append, fits_append, List.length_map] at fits
  obtain ⟨bl, hbl, hcostl⟩ := ihl p i fits.1
  obtain ⟨br, hbr, hcostr⟩ := ihr p _ fits.2
  obtain ⟨hrows, hmid⟩ := (linked_arrangedFactors extent h.1).ends fits.1 (map_arrangedFactors_ne_nil extent left)
  obtain ⟨_, hcols⟩ := (linked_arrangedFactors extent h.2.1).ends fits.2 (map_arrangedFactors_ne_nil extent right)
  rw [List.length_map] at hmid hcols
  have hposl := List.length_pos_iff.2 (arrangedFactors_ne_nil extent left)
  have hposr := List.length_pos_iff.2 (arrangedFactors_ne_nil extent right)
  obtain ⟨m, hm⟩ := Nat.exists_eq_add_one_of_ne_zero (Nat.ne_of_gt hposl)
  obtain ⟨n, hn⟩ := Nat.exists_eq_add_one_of_ne_zero (Nat.ne_of_gt hposr)
  rw [hm] at hbl hbr hmid hcols
  rw [hn] at hbr hcols
  have hwork : (left.shape extent).work (right.shape extent) = joinWork p i (i + m) (i + m + 1 + n) := by
    rw [Shape.work, hrows, hmid, hcols]
    rfl
  have hlast : i + (m + 1 + (n + 1)) - 1 = i + m + 1 + n := by omega
  refine ⟨.join bl br, ?_, ?_⟩
  · rw [arrangedFactors, List.length_append, hm, hn, hlast]
    exact .join hbl hbr
  · have hcost : (Bracketing.join bl br).cost p =
        bl.cost p + br.cost p + joinWork p i (i + m) (i + m + 1 + n) := hbl.cost_join hbr p
    rw [hcost, arrangedFactors, List.map_append, total_append, cost, hwork]
    omega

theorem bracketed_of_sound {s : Skeleton β} (h : s.Sound extent) : s.Bracketed extent := by
  induction s with
  | atom a =>
    intro p i _
    exact ⟨.operand i, .operand i, by simp [Bracketing.cost, arrangedFactors, cost]⟩
  | product left right ihl ihr => exact bracketed_product extent h (ihl h.1) (ihr h.2.1)
  | sum left right ihl ihr =>
    intro p i _
    have hl := cost_arranged_le_of_bracketed extent h.1 (ihl h.1)
    have hr := cost_arranged_le_of_bracketed extent h.2.1 (ihr h.2.1)
    refine ⟨.operand i, .operand i, ?_⟩
    simp only [arrangedFactors, Bracketing.cost, List.map_singleton, total_cons, total_nil, cost]
    rw [arranged] at hl hr
    omega

theorem cost_arranged_le {s : Skeleton β} (h : s.Sound extent) : (s.arranged extent).cost extent ≤ s.cost extent :=
  cost_arranged_le_of_bracketed extent h (bracketed_of_sound extent h)

/-- The arrangement of a tree is the cheapest of all its reassociations. -/
theorem cost_arranged_le_of_reassociated {s t : Skeleton β} (h : t.Sound extent) (hst : Reassociated t s) :
    (s.arranged extent).cost extent ≤ t.cost extent := by
  rw [← (arranged_eq_iff extent t s).2 hst]
  exact cost_arranged_le extent h

end Arrangement

end Skeleton
end MatrixChain
