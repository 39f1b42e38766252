import MatrixChain.Chain.Run

/-!
# Linked shapes

Operands form a chain when each has the rows that the columns before it ask for. Then the boundaries of the chain are
the sides of the operands, and finding them does not fail.
-/

namespace MatrixChain
namespace Chain

/-- The shapes fit together one after the other, from `rows` rows to `cols` columns. -/
def Linked : Int → List Shape → Int → Prop
  | rows, [], cols => rows = cols
  | rows, s :: shapes, cols => s.rows = rows ∧ Linked s.cols shapes cols

theorem Linked.append {rows mid cols : Int} {shapes shapes' : List Shape} (h : Linked rows shapes mid)
    (h' : Linked mid shapes' cols) : Linked rows (shapes ++ shapes') cols := by
  induction shapes generalizing rows with
  | nil =>
    have he : rows = mid := h
    rw [he]
    exact h'
  | cons s shapes ih => exact ⟨h.1, ih h.2⟩

theorem linked_singleton (s : Shape) : Linked s.rows [s] s.cols :=
  ⟨rfl, rfl⟩

def boundaries : List Shape → List Int
  | [] => []
  | s :: shapes => s.rows :: (s :: shapes).map Shape.cols

@[simp] theorem length_boundaries {shapes : List Shape} (h : shapes ≠ []) :
    (boundaries shapes).length = shapes.length + 1 := by
  cases shapes with
  | nil => exact absurd rfl h
  | cons s shapes => simp [boundaries]

theorem length_boundaries_map {β : Type} (extent : β → Shape) {operands : List β} (hne : operands ≠ []) :
    (boundaries (operands.map extent)).length = operands.length + 1 := by
  rw [length_boundaries (by simpa using hne), List.length_map]

theorem boundaries_of_linked {rows cols : Int} {shapes : List Shape} (h : Linked rows shapes cols)
    (hne : shapes ≠ []) : boundaries shapes = rows :: shapes.map Shape.cols := by
  cases shapes with
  | nil => exact absurd rfl hne
  | cons s shapes => rw [boundaries, h.1]

/-- The shapes lie between boundaries, from number `i` on. -/
def Fits (p : Nat → Int) : Nat → List Shape → Prop
  | _, [] => True
  | i, s :: shapes => s = ⟨p i, p (i + 1)⟩ ∧ Fits p (i + 1) shapes

theorem fits_append {p : Nat → Int} {i : Nat} {shapes shapes' : List Shape} :
    Fits p i (shapes ++ shapes') ↔ Fits p i shapes ∧ Fits p (i + shapes.length) shapes' := by
  induction shapes generalizing i with
  | nil => simp [Fits]
  | cons s shapes ih =>
    have hplace : i + 1 + shapes.length = i + (s :: shapes).length := by
      rw [List.length_cons]
      omega
    rw [List.cons_append, Fits, Fits, ih, and_assoc, hplace]

theorem Fits.getElem {p : Nat → Int} {i : Nat} {shapes : List Shape} (h : Fits p i shapes) {m : Nat}
    (hm : m < shapes.length) : shapes[m] = ⟨p (i + m), p (i + m + 1)⟩ := by
  induction shapes generalizing i m with
  | nil => exact absurd hm (Nat.not_lt_zero m)
  | cons s shapes ih =>
    cases m with
    | zero => exact h.1
    | succ m =>
      have hplace : i + 1 + m = i + (m + 1) := by omega
      have hs := ih h.2 (Nat.lt_of_succ_lt_succ hm)
      rw [hplace] at hs
      exact hs

theorem Linked.ends {p : Nat → Int} {rows cols : Int} {i : Nat} {shapes : List Shape}
    (h : Linked rows shapes cols) (fits : Fits p i shapes) (hne : shapes ≠ []) :
    rows = p i ∧ cols = p (i + shapes.length) := by
  induction shapes generalizing rows i with
  | nil => exact absurd rfl hne
  | cons s shapes ih =>
    obtain ⟨hrows, hrest⟩ := h
    obtain ⟨rfl, hfits⟩ := fits
    cases shapes with
    | nil => exact ⟨hrows.symm, Eq.symm hrest⟩
    | cons s' shapes =>
      have hplace : i + 1 + (s' :: shapes).length = i + (s' :: shapes).length + 1 := by omega
      have hcols := (ih hrest hfits (List.cons_ne_nil _ _)).2
      rw [hplace] at hcols
      exact ⟨hrows.symm, hcols⟩

theorem Linked.fits {p : Nat → Int} {rows cols : Int} {i : Nat} {shapes : List Shape} (h : Linked rows shapes cols)
    (hp : ∀ m, p (i + m) = (rows :: shapes.map Shape.cols).getD m 0) : Fits p i shapes := by
  induction shapes generalizing rows i with
  | nil => trivial
  | cons s shapes ih =>
    have hfirst : p i = s.rows := (hp 0).trans h.1.symm
    have hnext : p (i + 1) = s.cols := hp 1
    refine ⟨by rw [hfirst, hnext], ih h.2 fun m => ?_⟩
    have hplace : i + 1 + m = i + (m + 1) := by omega
    rw [hplace]
    exact hp (m + 1)

theorem Linked.fits_boundaries {rows cols : Int} {shapes : List Shape} (h : Linked rows shapes cols) :
    Fits (boundary (boundaries shapes).toArray) 0 shapes := by
  by_cases hne : shapes = []
  · rw [hne]
    trivial
  · refine h.fits fun m => ?_
    rw [boundaries_of_linked h hne, Nat.zero_add]
    simp [boundary, Array.getD_eq_getD_getElem?, List.getD_eq_getElem?_getD]

theorem nonneg_of_mem_boundaries {shapes : List Shape} (h : ∀ s ∈ shapes, 0 ≤ s.rows ∧ 0 ≤ s.cols) :
    ∀ d ∈ boundaries shapes, 0 ≤ d := by
  cases shapes with
  | nil => simp [boundaries]
  | cons s shapes =>
    intro d hd
    simp only [boundaries, List.mem_cons, List.mem_map] at hd
    rcases hd with rfl | ⟨s', hs', rfl⟩
    · exact (h s List.mem_cons_self).1
    · exact (h s' (by simpa using hs')).2

variable {α : Type}

theorem extendBoundaries_of_linked {done : List Int} {rows cols : Int} {es : List (Expr α)}
    (h : Linked rows (es.map Expr.shape) cols) :
    extendBoundaries done rows es = .ok (done.reverse ++ rows :: es.map fun e => e.shape.cols) := by
  induction es generalizing done rows with
  | nil => simp [extendBoundaries, pure, Except.pure]
  | cons e es ih =>
    rw [extendBoundaries, if_pos h.1, ih h.2]
    simp

theorem dimensionsOf_of_linked {rows cols : Int} {es : List (Expr α)} (h : Linked rows (es.map Expr.shape) cols)
    (hne : es ≠ []) : dimensionsOf es = .ok (boundaries (es.map Expr.shape)) := by
  cases es with
  | nil => exact absurd rfl hne
  | cons e es =>
    have hlinked : Linked e.shape.rows ((e :: es).map Expr.shape) cols := ⟨rfl, h.2⟩
    rw [dimensionsOf, extendBoundaries_of_linked hlinked]
    simp [boundaries]

end Chain
end MatrixChain
