import MatrixChain.Expr.Basic
import MatrixChain.Shape

/-!
# Skeletons and reassociation

What is left of a tree without the identities and shapes of its products and sums: which of them stand where, over
which atoms. Two skeletons are reassociations of each other when the associative law, used anywhere and either way,
leads from one to the other.
-/

namespace MatrixChain

inductive Skeleton (β : Type) where
  | atom (a : β)
  | product (left right : Skeleton β)
  | sum (left right : Skeleton β)

namespace Skeleton

variable {β : Type}

def map {γ : Type} (f : β → γ) : Skeleton β → Skeleton γ
  | atom a => atom (f a)
  | product left right => product (left.map f) (right.map f)
  | sum left right => sum (left.map f) (right.map f)

/-- The same tree with a tree in place of each atom. -/
def graft {γ : Type} (f : β → Skeleton γ) : Skeleton β → Skeleton γ
  | atom a => f a
  | product left right => product (left.graft f) (right.graft f)
  | sum left right => sum (left.graft f) (right.graft f)

def atoms : Skeleton β → List β
  | atom a => [a]
  | product left right => left.atoms ++ right.atoms
  | sum left right => left.atoms ++ right.atoms

/-- The smallest congruence in which products associate. -/
inductive Reassociated : Skeleton β → Skeleton β → Prop where
  | refl (s : Skeleton β) : Reassociated s s
  | symm {s t : Skeleton β} (h : Reassociated s t) : Reassociated t s
  | trans {s t u : Skeleton β} (h : Reassociated s t) (h' : Reassociated t u) : Reassociated s u
  | product {left left' right right' : Skeleton β} (hl : Reassociated left left')
      (hr : Reassociated right right') : Reassociated (.product left right) (.product left' right')
  | sum {left left' right right' : Skeleton β} (hl : Reassociated left left')
      (hr : Reassociated right right') : Reassociated (.sum left right) (.sum left' right')
  | assoc (a b c : Skeleton β) : Reassociated (.product (.product a b) c) (.product a (.product b c))

def comb (first : Skeleton β) : List (Skeleton β) → Skeleton β
  | [] => first
  | next :: rest => .product first (comb next rest)

theorem product_comb (first next : Skeleton β) (done rest : List (Skeleton β)) :
    Reassociated (.product (comb first done) (comb next rest)) (comb first (done ++ next :: rest)) := by
  induction done generalizing first with
  | nil => exact .refl _
  | cons second done ih => exact (Reassociated.assoc ..).trans (.product (.refl first) (ih second))

section Extents

variable (extent : β → Shape)

def shape : Skeleton β → Shape
  | atom a => extent a
  | product left right => left.shape.times right.shape
  | sum left _ => left.shape

def cost : Skeleton β → Int
  | atom _ => 0
  | product left right => left.cost + right.cost + (left.shape extent).work (right.shape extent)
  | sum left right => left.cost + right.cost

theorem map_shape_atom (items : List β) : (items.map atom).map (shape extent) = items.map extent := by
  rw [List.map_map]
  rfl

theorem total_cost_atom (items : List β) : total ((items.map atom).map (cost extent)) = 0 := by
  induction items with
  | nil => rfl
  | cons item items ih => simpa [cost] using ih

/-- Atoms have no negative side, products agree on their inner side and sums on their shape. -/
def Sound : Skeleton β → Prop
  | atom a => 0 ≤ (extent a).rows ∧ 0 ≤ (extent a).cols
  | product left right => left.Sound ∧ right.Sound ∧ (left.shape extent).cols = (right.shape extent).rows
  | sum left right => left.Sound ∧ right.Sound ∧ left.shape extent = right.shape extent

theorem Sound.shape_nonneg {extent : β → Shape} {s : Skeleton β} (h : s.Sound extent) :
    0 ≤ (s.shape extent).rows ∧ 0 ≤ (s.shape extent).cols := by
  induction s with
  | atom a => exact h
  | product left right ihl ihr => exact ⟨(ihl h.1).1, (ihr h.2.1).2⟩
  | sum left right ihl _ => exact ihl h.1

/-- Reassociation keeps the shape. -/
theorem Reassociated.shape_eq {s t : Skeleton β} (h : Reassociated s t) : s.shape extent = t.shape extent := by
  induction h with
  | refl => rfl
  | symm _ ih => exact ih.symm
  | trans _ _ ih ih' => exact ih.trans ih'
  | product _ _ ihl ihr => simp only [shape, ihl, ihr]
  | sum _ _ ihl _ => simp only [shape, ihl]
  | assoc => rfl

end Extents

end Skeleton

namespace Expr

variable {α : Type}

/-- The skeleton of an expression, over the nodes that are neither products nor sums. -/
def skeleton : Expr α → Skeleton (Expr α)
  | product _ left right _ => .product left.skeleton right.skeleton
  | sum _ left right _ => .sum left.skeleton right.skeleton
  | e => .atom e

instance : Inhabited (Expr α) :=
  ⟨.foreign ⟨0, "", "", ⟨0, 0⟩, ""⟩⟩

end Expr
end MatrixChain
