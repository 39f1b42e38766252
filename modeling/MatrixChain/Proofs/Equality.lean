import MatrixChain.Node
import MatrixChain.Proofs.Postorder
import Mathlib.Data.List.Basic

/-!
# Equality of nodes

Where nodes with one identity are one node, equality of nodes is an equivalence relation, although leaves are compared
by entries that need not equal themselves. Equal nodes have one digest, so what a set keeps of a list of nodes is the
same for any hash of digests, and as much in any order.
-/

namespace MatrixChain

section Distinct

variable {ν : Type} {r r' : ν → ν → Bool}

structure EquivalentOn (r : ν → ν → Bool) (items : List ν) : Prop where
  refl : ∀ a ∈ items, r a a
  symm : ∀ a ∈ items, ∀ b ∈ items, r a b → r b a
  trans : ∀ a ∈ items, ∀ b ∈ items, ∀ c ∈ items, r a b → r b c → r a c

/-- Induction along the removal of duplicates: what is related to the first item goes, and the rest is dealt with. -/
theorem eraseDupsInduction (r : ν → ν → Bool) {motive : List ν → Prop} (nil : motive [])
    (cons : ∀ a items, motive (items.filter fun b => r b a = false) → motive (a :: items)) (items : List ν) :
    motive items := by
  induction hlength : items.length using Nat.strongRecOn generalizing items with
  | ind length ih =>
    cases items with
    | nil => exact nil
    | cons a items =>
      have hshorter := List.length_filter_le (fun b => r b a = false) items
      exact cons a items (ih _ (by simp at hlength; omega) _ rfl)

theorem mem_of_mem_eraseDupsBy {items : List ν} {a : ν} (h : a ∈ items.eraseDupsBy r) : a ∈ items := by
  induction items using eraseDupsInduction r with
  | nil => exact h
  | cons b items ih =>
    rw [List.eraseDupsBy_cons] at h
    rcases List.mem_cons.1 h with rfl | h
    · exact List.mem_cons_self
    · exact List.mem_cons_of_mem b (List.mem_filter.1 (ih h)).1

theorem pairwise_eraseDupsBy (items : List ν) : (items.eraseDupsBy r).Pairwise fun a b => r b a = false := by
  induction items using eraseDupsInduction r with
  | nil => exact .nil
  | cons a items ih =>
    rw [List.eraseDupsBy_cons]
    refine .cons (fun b hb => ?_) ih
    exact of_decide_eq_true (List.mem_filter.1 (mem_of_mem_eraseDupsBy hb)).2

/-- Every item is represented by one that stays. -/
theorem exists_mem_eraseDupsBy {items : List ν} (refl : ∀ a ∈ items, r a a) {a : ν} (h : a ∈ items) :
    ∃ b ∈ items.eraseDupsBy r, r a b := by
  induction items using eraseDupsInduction r with
  | nil => cases h
  | cons first items ih =>
    rw [List.eraseDupsBy_cons]
    by_cases hfirst : r a first = true
    · exact ⟨first, List.mem_cons_self, hfirst⟩
    -- an item that the first one does not represent is kept for the rest
    · rcases List.mem_cons.1 h with rfl | h
      · exact absurd (refl a List.mem_cons_self) hfirst
      · obtain ⟨b, hb, hab⟩ := ih (fun c hc => refl c (List.mem_cons_of_mem first (List.mem_filter.1 hc).1))
          (List.mem_filter.2 ⟨h, by simpa using hfirst⟩)
        exact ⟨b, List.mem_cons_of_mem first hb, hab⟩

theorem eraseDupsBy_congr {items : List ν} (h : ∀ a ∈ items, ∀ b ∈ items, r a b = r' a b) :
    items.eraseDupsBy r = items.eraseDupsBy r' := by
  induction items using eraseDupsInduction r with
  | nil => rfl
  | cons first items ih =>
    have hfilter : (items.filter fun b => r b first = false) = items.filter fun b => r' b first = false :=
      List.filter_congr fun b hb => by rw [h b (List.mem_cons_of_mem first hb) first List.mem_cons_self]
    have hrest := ih fun a ha b hb => h a (List.mem_cons_of_mem first (List.mem_filter.1 ha).1) b
      (List.mem_cons_of_mem first (List.mem_filter.1 hb).1)
    rw [List.eraseDupsBy_cons, List.eraseDupsBy_cons, hrest, hfilter]

namespace EquivalentOn

variable {items list list' : List ν} (h : EquivalentOn r items)
include h

/-- An item stands for its class as the first one that is related to it. -/
theorem find?_eq_iff {a b : ν} (ha : a ∈ items) (hb : b ∈ items) :
    items.find? (r a) = items.find? (r b) ↔ r a b := by
  constructor
  · intro hfind
    obtain ⟨c, hc⟩ := Option.isSome_iff_exists.1 (List.find?_isSome.2 ⟨a, ha, h.refl a ha⟩)
    have hmem := List.mem_of_find?_eq_some hc
    have hac := List.find?_some hc
    have hbc := List.find?_some (hfind.symm.trans hc)
    exact h.trans a ha c hmem b hb hac (h.symm b hb c hmem hbc)
  · intro hab
    have hfilter : items.filter (r a) = items.filter (r b) := by
      refine List.filter_congr fun c hc => Bool.eq_iff_iff.2 ⟨fun hac => ?_, fun hbc => ?_⟩
      · exact h.trans b hb a ha c hc (h.symm a ha b hb hab) hac
      · exact h.trans a ha b hb c hc hab hbc
    rw [← List.head?_filter, ← List.head?_filter, hfilter]

theorem nodup_classes (subset : list ⊆ items) : ((list.eraseDupsBy r).map fun a => items.find? (r a)).Nodup := by
  rw [List.Nodup, List.pairwise_map]
  refine (pairwise_eraseDupsBy list).imp_of_mem fun ha hb hne hfind => ?_
  have hba := (h.find?_eq_iff (subset (mem_of_mem_eraseDupsBy hb)) (subset (mem_of_mem_eraseDupsBy ha))).1 hfind.symm
  rw [hne] at hba
  cases hba

theorem mem_classes (subset : list ⊆ items) {c : Option ν} :
    c ∈ ((list.eraseDupsBy r).map fun a => items.find? (r a)) ↔ ∃ a ∈ list, items.find? (r a) = c := by
  rw [List.mem_map]
  constructor
  · rintro ⟨a, ha, rfl⟩
    exact ⟨a, mem_of_mem_eraseDupsBy ha, rfl⟩
  · rintro ⟨a, ha, rfl⟩
    obtain ⟨b, hb, hab⟩ := exists_mem_eraseDupsBy (fun a ha => h.refl a (subset ha)) ha
    exact ⟨b, hb, ((h.find?_eq_iff (subset ha) (subset (mem_of_mem_eraseDupsBy hb))).2 hab).symm⟩

theorem length_eraseDupsBy (subset : list ⊆ items) (subset' : list' ⊆ items) (members : ∀ a, a ∈ list ↔ a ∈ list') :
    (list.eraseDupsBy r).length = (list'.eraseDupsBy r).length := by
  have hperm : ((list.eraseDupsBy r).map fun a => items.find? (r a)).Perm
      ((list'.eraseDupsBy r).map fun a => items.find? (r a)) := by
    rw [List.perm_ext_iff_of_nodup (h.nodup_classes subset) (h.nodup_classes subset')]
    intro c
    simp only [h.mem_classes subset, h.mem_classes subset', members]
  simpa using hperm.length_eq

end EquivalentOn

end Distinct

section Entries

variable {α : Type} [BEq α]

namespace DenseMatrix

theorem same_iff {a b : DenseMatrix α} :
    a.same b = true ↔ ∃ (rows : a.rows = b.rows) (cols : a.cols = b.cols), ∀ i j,
      (a.entry i j == b.entry (i.cast rows) (j.cast cols)) = true := by
  unfold same
  split
  next rows =>
    split
    next cols =>
      rw [List.all_eq_true]
      constructor
      · intro h
        refine ⟨rows, cols, fun i j => ?_⟩
        have hplace := h (place i j) (List.mem_finRange _)
        rwa [rowOf_place, colOf_place] at hplace
      · rintro ⟨_, _, h⟩ k _
        exact h _ _
    next cols => exact ⟨fun h => (nomatch h), fun h => absurd h.2.1 cols⟩
  next rows => exact ⟨fun h => (nomatch h), fun h => absurd h.1 rows⟩

theorem shape_eq_of_same {a b : DenseMatrix α} (h : a.same b = true) : a.shape = b.shape := by
  obtain ⟨rows, cols, _⟩ := same_iff.1 h
  rw [shape, shape, rows, cols]

variable [PartialEquivBEq α]

theorem same_symm {a b : DenseMatrix α} (h : a.same b = true) : b.same a = true := by
  obtain ⟨rows, cols, h⟩ := same_iff.1 h
  exact same_iff.2 ⟨rows.symm, cols.symm, fun i j => PartialEquivBEq.symm (h (i.cast rows.symm) (j.cast cols.symm))⟩

theorem same_trans {a b c : DenseMatrix α} (h : a.same b = true) (h' : b.same c = true) : a.same c = true := by
  obtain ⟨rows, cols, h⟩ := same_iff.1 h
  obtain ⟨rows', cols', h'⟩ := same_iff.1 h'
  exact same_iff.2 ⟨rows.trans rows', cols.trans cols', fun i j =>
    PartialEquivBEq.trans (h i j) (h' (i.cast rows) (j.cast cols))⟩

end DenseMatrix

namespace Expr

/-- Equality as a relation: of leaves by identity or by value, of products and sums by their operands, of unknown nodes
by identity. -/
inductive Same : Expr α → Expr α → Prop where
  | oneLeaf {id : NodeId} {matrix matrix' : DenseMatrix α} {label label' : Option String} :
      Same (leaf id matrix label) (leaf id matrix' label')
  | leaf {id id' : NodeId} {matrix matrix' : DenseMatrix α} {label : Option String} (h : matrix.same matrix' = true) :
      Same (leaf id matrix label) (leaf id' matrix' label)
  | product {id id' : NodeId} {left left' right right' : Expr α} {shape shape' : Shape} (hl : Same left left')
      (hr : Same right right') : Same (product id left right shape) (product id' left' right' shape')
  | sum {id id' : NodeId} {left left' right right' : Expr α} {shape shape' : Shape} (hl : Same left left')
      (hr : Same right right') : Same (sum id left right shape) (sum id' left' right' shape')
  | foreign {node node' : Foreign} (h : node.id = node'.id) : Same (foreign node) (foreign node')

theorem Same.of_same {a b : Expr α} (h : a.same b = true) : Same a b := by
  fun_induction same a b with
  | case1 id matrix label id' matrix' label' =>
    rcases Bool.or_eq_true_iff.1 h with hid | hvalue
    · obtain rfl := beq_iff_eq.1 hid
      exact .oneLeaf
    · obtain ⟨hlabel, hmatrix⟩ := Bool.and_eq_true_iff.1 hvalue
      obtain rfl := beq_iff_eq.1 hlabel
      exact .leaf hmatrix
  | case2 id left right shape id' left' right' shape' ihl ihr =>
    obtain ⟨hl, hr⟩ := Bool.and_eq_true_iff.1 h
    exact .product (ihl hl) (ihr hr)
  | case3 id left right shape id' left' right' shape' ihl ihr =>
    obtain ⟨hl, hr⟩ := Bool.and_eq_true_iff.1 h
    exact .sum (ihl hl) (ihr hr)
  | case4 node node' => exact .foreign (beq_iff_eq.1 h)
  | case5 => cases h

theorem same_iff {a b : Expr α} : a.same b = true ↔ Same a b := by
  refine ⟨Same.of_same, fun h => ?_⟩
  induction h with
  | oneLeaf => simp [same]
  | leaf h => simp [same, h]
  | product _ _ ihl ihr => simp [same, ihl, ihr]
  | sum _ _ ihl ihr => simp [same, ihl, ihr]
  | foreign h => simp [same, h]

namespace Same

/-- Every node equals itself, whatever its entries do. -/
theorem refl (e : Expr α) : Same e e := by
  induction e with
  | leaf id matrix label => exact .oneLeaf
  | product id left right shape ihl ihr => exact .product ihl ihr
  | sum id left right shape ihl ihr => exact .sum ihl ihr
  | foreign node => exact .foreign rfl

theorem symm [PartialEquivBEq α] {a b : Expr α} (h : Same a b) : Same b a := by
  induction h with
  | oneLeaf => exact .oneLeaf
  | leaf h => exact .leaf (DenseMatrix.same_symm h)
  | product _ _ ihl ihr => exact .product ihl ihr
  | sum _ _ ihl ihr => exact .sum ihl ihr
  | foreign h => exact .foreign h.symm

section Identified

variable {nodes : List (Expr α)} (identified : Identified nodes)
include identified

/-- Identity and value go together only where leaves with one identity hold one matrix and one label. -/
theorem trans [PartialEquivBEq α] {a b c : Expr α} (ha : a.postorder ⊆ nodes) (hb : b.postorder ⊆ nodes)
    (hc : c.postorder ⊆ nodes) (h : Same a b) (h' : Same b c) : Same a c := by
  induction h generalizing c with
  | oneLeaf =>
    cases identified _ (ha List.mem_cons_self) _ (hb List.mem_cons_self) rfl
    exact h'
  | leaf h =>
    cases h' with
    | oneLeaf =>
      cases identified _ (hb List.mem_cons_self) _ (hc List.mem_cons_self) rfl
      exact .leaf h
    | leaf h' => exact .leaf (DenseMatrix.same_trans h h')
  | product _ _ ihl ihr =>
    cases h' with
    | product hl' hr' =>
      simp only [postorder_product, List.append_subset] at ha hb hc
      exact .product (ihl ha.1.1 hb.1.1 hc.1.1 hl') (ihr ha.1.2 hb.1.2 hc.1.2 hr')
  | sum _ _ ihl ihr =>
    cases h' with
    | sum hl' hr' =>
      simp only [postorder_sum, List.append_subset] at ha hb hc
      exact .sum (ihl ha.1.1 hb.1.1 hc.1.1 hl') (ihr ha.1.2 hb.1.2 hc.1.2 hr')
  | foreign h =>
    cases h' with
    | foreign h' => exact .foreign (h.trans h')

theorem digest_eq {a b : Expr α} (ha : a.postorder ⊆ nodes) (hb : b.postorder ⊆ nodes) (h : Same a b) :
    a.digest = b.digest := by
  induction h with
  | oneLeaf =>
    cases identified _ (ha List.mem_cons_self) _ (hb List.mem_cons_self) rfl
    rfl
  | leaf h => rw [digest, digest, DenseMatrix.shape_eq_of_same h]
  | product _ _ ihl ihr =>
    simp only [postorder_product, List.append_subset] at ha hb
    rw [digest, digest, ihl ha.1.1 hb.1.1, ihr ha.1.2 hb.1.2]
  | sum _ _ ihl ihr =>
    simp only [postorder_sum, List.append_subset] at ha hb
    rw [digest, digest, ihl ha.1.1 hb.1.1, ihr ha.1.2 hb.1.2]
  | foreign h => rw [digest, digest, h]

end Identified

end Same

end Expr

namespace Node

def postorder : Node α → List (Expr α)
  | expr e => e.postorder
  | bare _ => []

omit [BEq α] in
theorem postorder_subset_flatMap {nodes : List (Node α)} {e : Expr α} (h : expr e ∈ nodes) :
    e.postorder ⊆ nodes.flatMap postorder :=
  fun _ hn => List.mem_flatMap.2 ⟨_, h, hn⟩

/-- What a hash set keeps of nodes that are put into it in order: it compares a node with those of the same hash. -/
def distinctBy (hash : Expr.Digest → Int) (nodes : List (Node α)) : List (Node α) :=
  nodes.eraseDupsBy fun a b => hash a.digest == hash b.digest && a.same b

theorem same_refl (a : Node α) : a.same a = true := by
  cases a with
  | expr e => exact Expr.same_iff.2 (.refl e)
  | bare id => exact beq_self_eq_true id

theorem same_symm [PartialEquivBEq α] {a b : Node α} (h : a.same b = true) : b.same a = true := by
  cases a with
  | expr e =>
    cases b with
    | expr e' => exact Expr.same_iff.2 (Expr.same_iff.1 h).symm
    | bare id' => cases h
  | bare id =>
    cases b with
    | expr e' => cases h
    | bare id' => exact beq_iff_eq.2 (beq_iff_eq.1 h).symm

section Identified

variable {nodes : List (Node α)} (identified : Expr.Identified (nodes.flatMap postorder))
include identified

theorem same_trans [PartialEquivBEq α] {a b c : Node α} (ha : a ∈ nodes) (hb : b ∈ nodes) (hc : c ∈ nodes)
    (h : a.same b = true) (h' : b.same c = true) : a.same c = true := by
  cases a with
  | expr e =>
    cases b with
    | expr e' =>
      cases c with
      | expr e'' =>
        exact Expr.same_iff.2 (.trans identified (postorder_subset_flatMap ha) (postorder_subset_flatMap hb)
          (postorder_subset_flatMap hc) (Expr.same_iff.1 h) (Expr.same_iff.1 h'))
      | bare id'' => cases h'
    | bare id' => cases h
  | bare id =>
    cases b with
    | expr e' => cases h
    | bare id' =>
      cases c with
      | expr e'' => cases h'
      | bare id'' => exact beq_iff_eq.2 ((beq_iff_eq.1 h).trans (beq_iff_eq.1 h'))

theorem equivalentOn_same [PartialEquivBEq α] : EquivalentOn same nodes where
  refl a _ := a.same_refl
  symm _ _ _ _ := same_symm
  trans _ ha _ hb _ hc := same_trans identified ha hb hc

theorem digest_eq_of_same {a b : Node α} (ha : a ∈ nodes) (hb : b ∈ nodes) (h : a.same b = true) :
    a.digest = b.digest := by
  cases a with
  | expr e =>
    cases b with
    | expr e' =>
      exact (Expr.same_iff.1 h).digest_eq identified (postorder_subset_flatMap ha) (postorder_subset_flatMap hb)
    | bare id' => cases h
  | bare id =>
    cases b with
    | expr e' => cases h
    | bare id' => exact congrArg Expr.Digest.identity (beq_iff_eq.1 h)

theorem distinctBy_eq (hash : Expr.Digest → Int) {list : List (Node α)} (subset : list ⊆ nodes) :
    distinctBy hash list = distinct list := by
  refine eraseDupsBy_congr fun a ha b hb => ?_
  cases hsame : a.same b with
  | false => exact (Bool.and_false _).trans hsame.symm
  | true =>
    rw [digest_eq_of_same identified (subset ha) (subset hb) hsame, beq_self_eq_true]
    exact hsame.symm

theorem length_distinct [PartialEquivBEq α] {list list' : List (Node α)} (subset : list ⊆ nodes)
    (perm : list.Perm list') : (distinct list).length = (distinct list').length := by
  have subset' : list' ⊆ nodes := fun a ha => subset (perm.mem_iff.2 ha)
  exact (equivalentOn_same identified).length_eraseDupsBy subset subset' fun a => perm.mem_iff

end Identified

end Node

end Entries

end MatrixChain
