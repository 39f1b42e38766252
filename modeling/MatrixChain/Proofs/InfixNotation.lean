import MatrixChain.Expr.Infix
import MatrixChain.Proofs.InfixGrammar

/-!
# The infix notation is unambiguous

What an expression shows of itself is its skeleton, with a text for each node that is neither a product nor a sum. The
tokens of the infix notation derive that skeleton, so where the texts of the atoms are words the reader finds the skeleton
in the text.
-/

namespace MatrixChain

open Infix InfixToken

namespace Skeleton

variable {β : Type}

def isSum : Skeleton β → Bool
  | sum .. => true
  | _ => false

def isProduct : Skeleton β → Bool
  | product .. => true
  | _ => false

def infixTokens : Skeleton String → List InfixToken
  | atom text => [.atom text]
  | product left right =>
    Expr.parenthesizedIf left.isSum left.infixTokens ++
      .times :: Expr.parenthesizedIf (right.isSum || right.isProduct) right.infixTokens
  | sum left right => left.infixTokens ++ .plus :: Expr.parenthesizedIf right.isSum right.infixTokens

def level : Skeleton β → Level
  | atom _ => .operand
  | product .. => .product
  | sum .. => .sum

section Derivation

variable {s : Skeleton String} {tokens : List InfixToken}

theorem derives_sum (h : Derives s.level tokens s) : Derives .sum tokens s := by
  cases s with
  | atom text => exact .product (.operand h)
  | product left right => exact .product h
  | sum left right => exact h

theorem derives_product (h : Derives s.level tokens s) :
    Derives .product (Expr.parenthesizedIf s.isSum tokens) s := by
  cases s with
  | atom text => exact .operand h
  | product left right => exact h
  | sum left right => exact .operand (.bracketed h)

theorem derives_operand (h : Derives s.level tokens s) :
    Derives .operand (Expr.parenthesizedIf (s.isSum || s.isProduct) tokens) s := by
  cases s with
  | atom text => exact h
  | product left right => exact .bracketed (.product h)
  | sum left right => exact .bracketed h

theorem derives_infixTokens (s : Skeleton String) : Derives s.level s.infixTokens s := by
  induction s with
  | atom text => exact .atom text
  | product left right ihl ihr => exact .times (derives_product ihl) (derives_operand ihr)
  | sum left right ihl ihr => exact .plus (derives_sum ihl) (derives_product ihr)

end Derivation

end Skeleton

namespace Infix

def separators : List Char := [' ', '(', ')', '*', '+']

theorem Derives.scansBack {level : Level} {tokens : List InfixToken} {s : Skeleton String} (h : Derives level tokens s)
    (words : ∀ text ∈ s.atoms, IsWord separators text) : ScansBack separators tokens := by
  induction h with
  | atom text => exact scansBack_atom (words text (List.mem_singleton_self text))
  | bracketed _ ih => exact (ih words).enclosed (by decide) (by decide)
  | operand _ ih => exact ih words
  | times _ _ ihl ihr =>
    have hl := ihl fun text h => words text (List.mem_append_left _ h)
    have hr := ihr fun text h => words text (List.mem_append_right _ h)
    exact hl.separated (by decide) hr
  | product _ ih => exact ih words
  | plus _ _ ihl ihr =>
    have hl := ihl fun text h => words text (List.mem_append_left _ h)
    have hr := ihr fun text h => words text (List.mem_append_right _ h)
    exact hl.separated (by decide) hr

/-- The reader of the infix notation. -/
def read? (text : String) : Option (Skeleton String) :=
  readTokens? (scan separators text)

end Infix

namespace Expr

variable {α : Type}

/-- The skeleton of an expression with the texts of its atoms. -/
def rendering (e : Expr α) : Skeleton String :=
  e.skeleton.map infixText

def Legible (e : Expr α) : Prop :=
  ∀ text ∈ e.rendering.atoms, IsWord separators text

instance (e : Expr α) : Decidable e.Legible :=
  inferInstanceAs (Decidable (∀ text ∈ e.rendering.atoms, IsWord separators text))

@[simp] theorem infixText_leaf (id : NodeId) (matrix : DenseMatrix α) (label : Option String) :
    (leaf id matrix label).infixText = leafText matrix label := by
  simp [infixText, infixTokens, String.join, InfixToken.text]

@[simp] theorem infixText_foreign (node : Foreign) : (foreign node : Expr α).infixText = node.text := by
  simp [infixText, infixTokens, String.join, InfixToken.text]

@[simp] theorem rendering_leaf (id : NodeId) (matrix : DenseMatrix α) (label : Option String) :
    (leaf id matrix label).rendering = .atom (leafText matrix label) :=
  congrArg Skeleton.atom (infixText_leaf id matrix label)

@[simp] theorem rendering_foreign (node : Foreign) : (foreign node : Expr α).rendering = .atom node.text :=
  congrArg Skeleton.atom (infixText_foreign node)

theorem isSum_rendering (e : Expr α) : e.rendering.isSum = e.isSum := by
  cases e <;> rfl

theorem isProduct_rendering (e : Expr α) : e.rendering.isProduct = e.isProduct := by
  cases e <;> rfl

/-- The notation shows the skeleton and the atoms, and nothing else of an expression. -/
theorem infixTokens_eq (e : Expr α) : e.infixTokens = e.rendering.infixTokens := by
  induction e with
  | leaf id matrix label =>
    rw [rendering_leaf]
    rfl
  | product id left right shape ihl ihr =>
    rw [infixTokens, ihl, ihr, ← isSum_rendering, ← isSum_rendering, ← isProduct_rendering]
    rfl
  | sum id left right shape ihl ihr =>
    rw [infixTokens, ihl, ihr, ← isSum_rendering]
    rfl
  | foreign node =>
    rw [rendering_foreign]
    rfl

theorem infixText_eq_of_rendering_eq {α' : Type} {e : Expr α} {e' : Expr α'} (h : e.rendering = e'.rendering) :
    e.infixText = e'.infixText := by
  rw [infixText, infixText, infixTokens_eq, infixTokens_eq, h]

theorem toList_infixText (e : Expr α) : e.infixText.toList = spelled e.infixTokens := by
  rw [infixText, String.toList_join, spelled, List.flatMap_map]

theorem scan_infixText {e : Expr α} (legible : e.Legible) : scan separators e.infixText = e.infixTokens := by
  have derived := e.rendering.derives_infixTokens
  rw [← infixTokens_eq] at derived
  exact (derived.scansBack legible).scan e.toList_infixText

theorem read?_infixText {e : Expr α} (legible : e.Legible) : read? e.infixText = some e.rendering := by
  rw [read?, scan_infixText legible, readTokens?_eq_some_iff, infixTokens_eq]
  exact Skeleton.derives_sum e.rendering.derives_infixTokens

variable (α) in
/-- One reader, which reads what the grammar of sums and products derives, finds the rendering of every legible
expression in its text. So two of them have one text exactly if they have one rendering. -/
theorem infixText_unambiguous :
    (∀ text s, read? text = some s ↔ Derives .sum (scan separators text) s) ∧
      (∀ e : Expr α, e.Legible → read? e.infixText = some e.rendering) ∧
      ∀ e e' : Expr α, e.Legible → e'.Legible → (e.infixText = e'.infixText ↔ e.rendering = e'.rendering) := by
  refine ⟨fun text s => readTokens?_eq_some_iff, fun e => read?_infixText, fun e e' legible legible' => ⟨fun h => ?_,
    infixText_eq_of_rendering_eq⟩⟩
  have hread := read?_infixText legible
  rw [h, read?_infixText legible'] at hread
  exact (Option.some.inj hread).symm

def single (id : NodeId) (label : Option String) : Expr Int :=
  leaf id (.ofFn 1 1 fun _ _ => 2) label

def labelledSum : Expr Int :=
  sum 4 (single 0 (some "A")) (single 1 none) ⟨1, 1⟩

/-- `(A + [1x1]) * (B * C)`. -/
def groupedRight : Expr Int :=
  product 6 labelledSum (product 5 (single 2 (some "B")) (single 3 (some "C")) ⟨1, 1⟩) ⟨1, 1⟩

def groupedLeft : Expr Int :=
  product 6 (product 5 labelledSum (single 2 (some "B")) ⟨1, 1⟩) (single 3 (some "C")) ⟨1, 1⟩

theorem infixText_unambiguous_of_grouped :
    groupedRight.Legible ∧ groupedLeft.Legible ∧ groupedRight.infixText = "(A + [1x1]) * (B * C)" ∧
      read? "(A + [1x1]) * (B * C)" =
        some (.product (.sum (.atom "A") (.atom "[1x1]")) (.product (.atom "B") (.atom "C"))) ∧
      groupedRight.infixText ≠ groupedLeft.infixText := by
  have right : groupedRight.Legible := by decide
  have left : groupedLeft.Legible := by decide
  have htext : groupedRight.infixText = "(A + [1x1]) * (B * C)" := by decide
  obtain ⟨_, hread, hiff⟩ := infixText_unambiguous Int
  have hright := hread groupedRight right
  rw [htext] at hright
  exact ⟨right, left, htext, hright, fun h => by cases (hiff _ _ right left).1 h⟩

end Expr
end MatrixChain
