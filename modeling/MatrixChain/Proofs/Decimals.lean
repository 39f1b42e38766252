import MatrixChain.Fault
import MatrixChain.Number.Reading
import Mathlib.Algebra.Order.Ring.Int

/-!
# Decimals

What is written of an integer is read back, and no integer of more digits than the limit is written. What is made of
several integers in writing is there if each of them can be written; otherwise there is the fault of the one that cannot.
-/

namespace MatrixChain

namespace Number

theorem decimal?_of_lt {n : Int} (h : n.natAbs < 10 ^ maxDigits) : decimal? n = some (toString n) :=
  if_pos ((Nat.length_repr_le_iff (by decide)).2 h)

theorem decimal?_of_le {n : Int} (h : 10 ^ maxDigits ≤ n.natAbs) : decimal? n = none :=
  if_neg fun hle => Nat.not_lt.2 h ((Nat.length_repr_le_iff (by decide)).1 hle)

end Number

/-- An integer that has no more digits than can be written. -/
def Writable (n : Int) : Prop :=
  n.natAbs < 10 ^ Number.maxDigits

theorem writable_iff {n : Int} (nonneg : 0 ≤ n) : Writable n ↔ n < 10 ^ Number.maxDigits := by
  rw [Writable, ← Int.ofNat_lt, Int.natAbs_of_nonneg nonneg, Int.natCast_pow]
  rfl

theorem not_writable_pow {k : Nat} (long : Number.maxDigits ≤ k) : ¬Writable (10 ^ k) := by
  rw [Writable, Int.natAbs_pow]
  exact Nat.not_lt.2 (Nat.pow_le_pow_right (by decide) long)

theorem lt_pow_maxDigits {n : Int} (h : n < 10 ^ 3) : n < 10 ^ Number.maxDigits :=
  Int.lt_trans h (Int.pow_lt_pow_of_lt (by decide) (by decide))

/-- Where `p` holds `x` comes to `value`, and otherwise to the fault of an integer that cannot be written. -/
structure Writes {γ : Type} (x : Except Fault γ) (p : Prop) (value : γ) : Prop where
  eq_ok : p → x = .ok value
  eq_error : ¬p → x = .error .tooManyDigits

theorem writes_decimal (n : Int) : Writes (decimal n) (Writable n) (toString n) where
  eq_ok h := by rw [decimal, Number.decimal?_of_lt h]; rfl
  eq_error h := by rw [decimal, Number.decimal?_of_le (Nat.not_lt.1 h)]; rfl

namespace Writes

variable {γ δ ι : Type} {p : Prop}

theorem map {x : Except Fault γ} {value : γ} (h : Writes x p value) (f : γ → δ) : Writes (f <$> x) p (f value) where
  eq_ok hp := by rw [h.eq_ok hp]; rfl
  eq_error hp := by rw [h.eq_error hp]; rfl

theorem bind {x : Except Fault γ} {f : γ → Except Fault δ} {value : γ} {value' : δ} (h : Writes x p value)
    (next : p → f value = .ok value') : Writes (x >>= f) p value' where
  eq_ok hp := by rw [h.eq_ok hp]; exact next hp
  eq_error hp := by rw [h.eq_error hp]; rfl

theorem mapM {f : ι → Except Fault δ} {q : ι → Prop} {value : ι → δ} (h : ∀ i, Writes (f i) (q i) (value i))
    (items : List ι) : Writes (items.mapM f) (∀ i ∈ items, q i) (items.map value) := by
  induction items with
  | nil => exact ⟨fun _ => rfl, fun hnot => absurd (List.forall_mem_nil _) hnot⟩
  | cons i items ih =>
    rw [List.mapM_cons, List.forall_mem_cons]
    by_cases hi : q i
    · rw [(h i).eq_ok hi, and_iff_right hi]
      exact ih.map (value i :: ·)
    · rw [(h i).eq_error hi]
      exact ⟨fun hall => absurd hall.1 hi, fun _ => rfl⟩

end Writes

theorem mapM_eq_ok {γ ι : Type} {f : ι → Except Fault γ} {value : ι → γ} {items : List ι}
    (h : ∀ i ∈ items, f i = .ok (value i)) : items.mapM f = .ok (items.map value) := by
  induction items with
  | nil => rfl
  | cons i items ih =>
    rw [List.mapM_cons, h i List.mem_cons_self, ih fun i' h' => h i' (List.mem_cons_of_mem i h')]
    rfl

theorem BrokenChain.writes_text (m : BrokenChain) : Writes m.text (∀ d ∈ m.dimensions, Writable d) m.message :=
  (Writes.mapM writes_decimal m.dimensions).map m.wording

section Decimals

def decimals (n : Int) : List Char :=
  (toString n).toList

theorem isDigit_of_mem_repr {m : Nat} {c : Char} (h : c ∈ m.repr.toList) : c.isDigit = true := by
  rw [Nat.toList_repr] at h
  exact Nat.isDigit_of_mem_toDigits (by decide) (by decide) h

theorem mem_decimals {n : Int} {c : Char} (h : c ∈ decimals n) : c = '-' ∨ c.isDigit = true := by
  rw [decimals, Int.toString_eq_repr] at h
  cases n with
  | ofNat m => exact Or.inr (isDigit_of_mem_repr h)
  | negSucc m =>
    have hsign : (Int.repr (.negSucc m)).toList = '-' :: (m + 1).repr.toList := by simp [Int.repr]
    rw [hsign] at h
    exact (List.mem_cons.1 h).imp_right isDigit_of_mem_repr

variable {n : Int} (nonneg : 0 ≤ n)
include nonneg

theorem decimals_of_nonneg : decimals n = Nat.toDigits 10 n.toNat := by
  obtain ⟨m, rfl⟩ := Int.eq_ofNat_of_zero_le nonneg
  have hrepr : toString (m : Int) = m.repr := Int.toString_eq_repr
  rw [decimals, hrepr, Nat.toList_repr, Int.toNat_natCast]

theorem decimals_ne_nil : decimals n ≠ [] := by
  rw [decimals_of_nonneg nonneg]
  exact Nat.toDigits_ne_nil

theorem notMem_decimals {c : Char} (h : c.isDigit = false) : c ∉ decimals n := by
  rw [decimals_of_nonneg nonneg]
  intro hmem
  have hdigit := Nat.isDigit_of_mem_toDigits (by decide) (by decide) hmem
  rw [h] at hdigit
  cases hdigit

theorem ofDigits_decimals : (Number.ofDigits (decimals n) : Int) = n := by
  have hdigits : Number.ofDigits (decimals n) = Nat.ofDigitChars 10 (decimals n) 0 := by
    simp only [Number.ofDigits, Nat.ofDigitChars, Nat.mul_comm 10]
    rfl
  rw [hdigits, decimals_of_nonneg nonneg, Nat.ofDigitChars_ten_toDigits, Int.toNat_of_nonneg nonneg]

end Decimals

end MatrixChain
