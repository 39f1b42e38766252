import MatrixChain.Proofs.BracketedNotation
import MatrixChain.Proofs.InfixNotation
import MatrixChain.Proofs.Reassociation
import MatrixChain.Proofs.Reconstruction

/-!
# Two renderings of the cheapest association

The cheapest association of labelled leaves is written in two notations: by the tables, with all of its brackets, and by
the tree that is rebuilt from any product of the leaves, with the brackets that the infix notation needs. Both texts read
as the bracketing that the split table describes. That bracketing is told by its text.
-/

namespace MatrixChain

open Chain InfixToken

namespace Bracketing

variable (name : Nat → String)

/-- A bracketing is told by the product of the names, even where operands share a name: they are numbered in their order,
so the first number and the form of the product tell all of them. -/
theorem Spans.eq_of_named_eq {b b' : Bracketing} {i j j' : Nat} (h : b.Spans i j) (h' : b'.Spans i j')
    (same : b.named name = b'.named name) : b = b' := by
  induction h generalizing b' j' with
  | operand i =>
    cases h' with
    | operand => rfl
    | join => cases same
  | join hl _ ihl ihr =>
    cases h' with
    | operand => cases same
    | join hl' hr' =>
      obtain ⟨hleft, hright⟩ := Skeleton.product.inj same
      obtain rfl := ihl hl' hleft
      obtain rfl := hl.last_eq.symm.trans hl'.last_eq
      rw [ihr hr' hright]

end Bracketing

namespace Tableau

open FullyBracketed

section Labels

variable {labels : List String} {t u : Tableau}

theorem bracketed_labels_eq (within : t.SplitsWithin) (nonempty : 0 < labels.length)
    (count : t.length = labels.length) : t.bracketed (some labels) =
      .ok ((t.bracketing 0 (labels.length - 1)).written fun i => labels.getD i "") := by
  rw [bracketed_eq within (by omega) (show (t.namesOf (some labels)).length = t.length from count.symm), count]
  rfl

theorem isWord_of_mem_operands (words : ∀ label ∈ labels, IsWord Infix.separators label) {b : Bracketing}
    (h : b.Spans 0 (labels.length - 1)) (nonempty : 0 < labels.length) :
    ∀ i ∈ b.operands, IsWord Infix.separators (labels.getD i "") := by
  intro i hi
  have hmem : labels.getD i "" ∈ b.operands.map fun i => labels.getD i "" := List.mem_map.2 ⟨i, hi, rfl⟩
  rw [h.map_getD_operands (List.ne_nil_of_length_pos nonempty) ""] at hmem
  exact words _ hmem

theorem reads_labels (words : ∀ label ∈ labels, IsWord Infix.separators label) {b : Bracketing}
    (h : b.Spans 0 (labels.length - 1)) (nonempty : 0 < labels.length) (s : Skeleton String) :
    Reads (b.written fun i => labels.getD i "") s ↔ s = b.named fun i => labels.getD i "" := by
  have hwords := isWord_of_mem_operands words h nonempty
  exact b.reads_written _ (fun i hi => (hwords i hi).of_subset (by decide)) s

/-- Two chains of the same words have one text exactly if they are associated in one way. -/
theorem bracketed_labels_eq_iff (words : ∀ label ∈ labels, IsWord Infix.separators label) (nonempty : 0 < labels.length)
    (within : t.SplitsWithin) (within' : u.SplitsWithin) (count : t.length = labels.length)
    (count' : u.length = labels.length) :
    (∃ line, t.bracketed (some labels) = .ok line ∧ u.bracketed (some labels) = .ok line) ↔
      t.bracketing 0 (labels.length - 1) = u.bracketing 0 (labels.length - 1) := by
  have hspans := bracketing_spans within (Nat.zero_le (labels.length - 1)) (by omega)
  have hspans' := bracketing_spans within' (Nat.zero_le (labels.length - 1)) (by omega)
  rw [bracketed_labels_eq within nonempty count, bracketed_labels_eq within' nonempty count']
  constructor
  · rintro ⟨line, hline, hline'⟩
    have hread := (reads_labels words hspans nonempty _).2 rfl
    rw [Except.ok.inj (hline.trans hline'.symm), reads_labels words hspans' nonempty] at hread
    exact hspans.eq_of_named_eq _ hspans' hread
  · intro hsame
    exact ⟨_, rfl, by rw [hsame]⟩

end Labels

end Tableau

namespace Expr

open FullyBracketed

variable {α : Type}

def LabelledAs (o : Expr α) (label : String) : Prop :=
  ∃ id matrix, o = leaf id matrix (some label)

section Leaves

variable {leaves : List (Expr α)} {labels : List String} (labelled : List.Forall₂ LabelledAs leaves labels)
include labelled

theorem map_infixText_of_labelled : leaves.map infixText = labels := by
  induction labelled with
  | nil => rfl
  | cons hleaf _ ih =>
    obtain ⟨id, matrix, rfl⟩ := hleaf
    rw [List.map_cons, ih, infixText_leaf]
    rfl

theorem exists_leaf_of_labelled : ∀ o ∈ leaves, ∃ id matrix label, o = leaf id matrix label := by
  induction labelled with
  | nil => exact List.forall_mem_nil _
  | cons hleaf _ ih =>
    obtain ⟨id, matrix, rfl⟩ := hleaf
    exact List.forall_mem_cons.2 ⟨⟨_, _, _, rfl⟩, ih⟩

end Leaves

theorem skeleton_eq_runSkeleton {e : Expr α} (leaves : ∀ o ∈ e.factors, ∃ id matrix label, o = leaf id matrix label) :
    e.skeleton = e.runSkeleton := by
  induction e with
  | product id left right shape ihl ihr =>
    rw [factors_product] at leaves
    rw [skeleton, runSkeleton, ihl fun o ho => leaves o (List.mem_append_left _ ho),
      ihr fun o ho => leaves o (List.mem_append_right _ ho)]
  | sum =>
    obtain ⟨_, _, _, h⟩ := leaves _ (List.mem_singleton_self _)
    cases h
  | _ => rfl

/-- What a product of leaves is rebuilt as shows the texts of the leaves along the cheapest bracketing. -/
theorem Arranges.rendering_eq {e r : Expr α} (h : Arranges e r)
    (leaves : ∀ o ∈ e.factors, ∃ id matrix label, o = leaf id matrix label) :
    r.rendering = (Tableau.cheapest (boundaries (e.factors.map shape))).named
      fun i => (e.factors.map infixText).getD i "" := by
  have hskeleton : r.skeleton = Skeleton.regrouped shape (e.factors.map .atom) := by
    rw [h.2, skeleton_eq_runSkeleton leaves, Skeleton.arranged, arrangedFactors_runSkeleton]
  have hnowhere : (default : Expr α).infixText = "" := infixText_foreign _
  rw [rendering, hskeleton, Skeleton.regrouped, Skeleton.map_shape_atom]
  refine (Bracketing.apply_assemble (f := Skeleton.map infixText) (fun _ _ => rfl) _).trans ?_
  rw [Bracketing.named]
  congr 1
  funext i
  by_cases hi : i < e.factors.length
  · simp [hi, Skeleton.map]
  · simp [Nat.not_lt.1 hi, Skeleton.map, hnowhere]

theorem derives_infixText_iff {r : Expr α} {b : Bracketing} {name : Nat → String} (shows : r.rendering = b.named name)
    (words : ∀ i ∈ b.operands, IsWord Infix.separators (name i)) (s : Skeleton String) :
    Infix.Derives .product (scan Infix.separators r.infixText) s ↔ s = b.named name := by
  have hlegible : r.Legible := by
    rw [Legible, shows, Bracketing.atoms_named]
    simpa using words
  have hsum : r.rendering.isSum = false := by
    rw [shows]
    cases b <;> rfl
  have hproduct := Skeleton.derives_product r.rendering.derives_infixTokens
  rw [hsum, ← infixTokens_eq] at hproduct
  rw [scan_infixText hlegible, ← shows]
  constructor
  · exact fun h => Infix.Derives.unique (.product h) (.product hproduct)
  · rintro rfl
    exact hproduct

/-- Labelled leaves are associated alike in both notations, and alike from whatever product of them one starts. So
labels that are words tell the associations of all chains of so many operands. -/
theorem renderings_agree {labels : List String} (words : ∀ label ∈ labels, IsWord Infix.separators label) :
    (∀ leaves : List (Expr α), 2 ≤ leaves.length → List.Forall₂ LabelledAs leaves labels → leaves.IsChain Meets →
      ∃ t line b, dimensionsOf leaves >>= Tableau.solve = .ok t ∧ b = t.bracketing 0 (labels.length - 1) ∧
        b.Spans 0 (labels.length - 1) ∧ t.bracketed (some labels) = .ok line ∧
        (∀ s, Reads line s ↔ s = b.named fun i => labels.getD i "") ∧
        ∀ e : Expr α, Built e → Chain.run e = .ok leaves → ∀ next, ∃ r next',
          e.reassociate.run next = .ok (r, next') ∧
          ∀ s, Infix.Derives .product (scan Infix.separators r.infixText) s ↔ s = b.named fun i => labels.getD i "") ∧
    (∀ t u : Tableau, 0 < labels.length → t.SplitsWithin → u.SplitsWithin → t.length = labels.length →
      u.length = labels.length →
        ((∃ line, t.bracketed (some labels) = .ok line ∧ u.bracketed (some labels) = .ok line) ↔
          t.bracketing 0 (labels.length - 1) = u.bracketing 0 (labels.length - 1))) ∧
    ∀ dimensions t, Tableau.solve dimensions = .ok t → t.SplitsWithin := by
  refine ⟨fun leaves two labelled chain => ?_, fun t u nonempty within within' count count' =>
    Tableau.bracketed_labels_eq_iff words nonempty within within' count count', fun _ _ => Tableau.splitsWithin_of_solve⟩
  have hne : leaves ≠ [] := List.ne_nil_of_length_pos (by omega)
  have hcount : leaves.length = labels.length := labelled.length_eq
  have hleaves := exists_leaf_of_labelled labelled
  have hsound : Sound leaves := by
    refine ⟨hne, chain, nonneg_of_built fun o ho => ?_⟩
    obtain ⟨id, matrix, label, rfl⟩ := hleaves o ho
    exact built_leaf id matrix label
  have hlength : (Tableau.ofDimensions (boundaries (leaves.map shape))).length = labels.length := by
    rw [Tableau.length_ofDimensions, length_boundaries_map shape hne, hcount, Nat.add_sub_cancel]
  have hwithin := Tableau.splitsWithin_ofDimensions (boundaries (leaves.map shape))
  have hspans := Tableau.bracketing_spans hwithin (Nat.zero_le (labels.length - 1)) (by omega)
  refine ⟨_, _, _, hsound.solve_eq, rfl, hspans, Tableau.bracketed_labels_eq hwithin (by omega) hlength,
    Tableau.reads_labels words hspans (by omega), fun e built hrun next => ?_⟩
  obtain rfl : e.factors = leaves := by
    cases e <;> cases hrun
    rfl
  obtain ⟨r, next', hr, harranges⟩ := built.reassociate_run next
  refine ⟨r, next', hr, derives_infixText_iff ?_ (Tableau.isWord_of_mem_operands words hspans (by omega))⟩
  rw [harranges.rendering_eq hleaves, map_infixText_of_labelled labelled, Tableau.cheapest, hlength]

def ones (id rows cols : Nat) (label : String) : Expr Int :=
  leaf id (.ofFn rows cols fun _ _ => 1) (some label)

def fourOnes : List (Expr Int) :=
  [ones 0 400 300 "A", ones 1 300 30 "B", ones 2 30 500 "C", ones 3 500 400 "D"]

def fromLeft : Expr Int :=
  product 6 (product 5 (product 4 (ones 0 400 300 "A") (ones 1 300 30 "B") ⟨400, 30⟩) (ones 2 30 500 "C") ⟨400, 500⟩)
    (ones 3 500 400 "D") ⟨400, 400⟩

theorem built_fromLeft : Built fromLeft :=
  built_product 6 (built_product 5 (built_product 4 (built_leaf ..) (built_leaf ..) rfl) (built_leaf ..) rfl)
    (built_leaf ..) rfl

def onesTables : Tableau :=
  .ofDimensions [400, 300, 30, 500, 400]

theorem bracketing_onesTables :
    onesTables.bracketing 0 3 = .join (.join (.operand 0) (.operand 1)) (.join (.operand 2) (.operand 3)) :=
  Tableau.bracketing_eq (.join (.join (.operand 0) (.operand 1)) (.join (.operand 2) (.operand 3))) (by decide)

theorem renderings_agree_of_fourOnes :
    (∀ label ∈ ["A", "B", "C", "D"], IsWord Infix.separators label) ∧
      List.Forall₂ LabelledAs fourOnes ["A", "B", "C", "D"] ∧ fourOnes.IsChain Meets ∧ Built fromLeft ∧
      Chain.run fromLeft = .ok fourOnes ∧ dimensionsOf fourOnes >>= Tableau.solve = .ok onesTables ∧
      onesTables.bracketed (some ["A", "B", "C", "D"]) = .ok "((A * B) * (C * D))" ∧
      ∃ r next', fromLeft.reassociate.run 7 = .ok (r, next') ∧
        ∀ s, Infix.Derives .product (scan Infix.separators r.infixText) s ↔
          s = .product (.product (.atom "A") (.atom "B")) (.product (.atom "C") (.atom "D")) := by
  have words : ∀ label ∈ ["A", "B", "C", "D"], IsWord Infix.separators label := by decide
  have labelled : List.Forall₂ LabelledAs fourOnes ["A", "B", "C", "D"] :=
    .cons ⟨_, _, rfl⟩ (.cons ⟨_, _, rfl⟩ (.cons ⟨_, _, rfl⟩ (.cons ⟨_, _, rfl⟩ .nil)))
  have chain : fourOnes.IsChain Meets := .cons_cons rfl (.cons_cons rfl (.cons_cons rfl (.singleton _)))
  have hsolve : Tableau.solve [400, 300, 30, 500, 400] = .ok onesTables :=
    Tableau.solve_eq_ok (by decide) (by decide)
  obtain ⟨agree, _, within⟩ := renderings_agree (α := Int) words
  obtain ⟨t, _, b, ht, hb, _, _, _, hrebuilt⟩ := agree fourOnes (by decide) labelled chain
  obtain rfl := Except.ok.inj (hsolve.symm.trans ht)
  obtain rfl := hb.trans bracketing_onesTables
  obtain ⟨r, next', hr, hreads⟩ := hrebuilt fromLeft built_fromLeft rfl 7
  have htext := Tableau.bracketed_labels_eq (within _ _ hsolve) (show 0 < ["A", "B", "C", "D"].length by decide) rfl
  rw [show ["A", "B", "C", "D"].length - 1 = 3 from rfl, bracketing_onesTables] at htext
  exact ⟨words, labelled, chain, built_fromLeft, rfl, hsolve, htext, r, next', hr, hreads⟩

end Expr
end MatrixChain
