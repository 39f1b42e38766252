import MatrixChain.Proofs.Association
import MatrixChain.Proofs.CheapestBracketing
import MatrixChain.Proofs.InfixGrammar

/-!
# The bracketed notation

Products in which every pair of operands stands in brackets. What is written so is one operand of the infix notation, so
it reads in one way. The text of a chain reads as the bracketing along which it was put together.
-/

namespace MatrixChain

open InfixToken

/-- The tokens of a product with all of its brackets. -/
inductive FullyBracketed : List InfixToken → Skeleton String → Prop where
  | atom (text : String) : FullyBracketed [.atom text] (.atom text)
  | product {tokens tokens' : List InfixToken} {s s' : Skeleton String} (hl : FullyBracketed tokens s)
      (hr : FullyBracketed tokens' s') :
      FullyBracketed (.opening :: (tokens ++ .times :: tokens') ++ [.closing]) (.product s s')

namespace FullyBracketed

def separators : List Char := [' ', '(', ')', '*']

variable {tokens : List InfixToken} {s s' : Skeleton String}

theorem derives (h : FullyBracketed tokens s) : Infix.Derives .operand tokens s := by
  induction h with
  | atom text => exact .atom text
  | product _ _ ihl ihr => exact .bracketed (.product (.times (.operand ihl) ihr))

theorem unique (h : FullyBracketed tokens s) (h' : FullyBracketed tokens s') : s = s' :=
  Infix.Derives.unique (.product (.operand h.derives)) (.product (.operand h'.derives))

theorem scansBack (h : FullyBracketed tokens s) (words : ∀ text ∈ s.atoms, IsWord separators text) :
    ScansBack separators tokens := by
  induction h with
  | atom text => exact scansBack_atom (words text (List.mem_singleton_self text))
  | product _ _ ihl ihr =>
    have hl := ihl fun text h => words text (List.mem_append_left _ h)
    have hr := ihr fun text h => words text (List.mem_append_right _ h)
    exact (hl.separated (by decide) hr).enclosed (by decide) (by decide)

/-- The text reads as this product. -/
def Reads (text : String) (s : Skeleton String) : Prop :=
  FullyBracketed (scan separators text) s

end FullyBracketed

open FullyBracketed

def inBrackets (left right : String) : String :=
  "(" ++ left ++ " * " ++ right ++ ")"

theorem toList_inBrackets (left right : String) :
    (inBrackets left right).toList = '(' :: (left.toList ++ ' ' :: '*' :: ' ' :: (right.toList ++ [')'])) := by
  simp [inBrackets]

namespace Bracketing

variable (name : Nat → String)

def written (b : Bracketing) : String :=
  b.assemble name inBrackets

def named (b : Bracketing) : Skeleton String :=
  b.assemble (fun i => .atom (name i)) .product

@[simp] theorem atoms_named (b : Bracketing) : (b.named name).atoms = b.operands.map name := by
  induction b with
  | operand i => rfl
  | join left right ihl ihr =>
    rw [operands, List.map_append, ← ihl, ← ihr]
    rfl

theorem exists_fullyBracketed (b : Bracketing) :
    ∃ tokens, FullyBracketed tokens (b.named name) ∧ (b.written name).toList = spelled tokens := by
  induction b with
  | operand i => exact ⟨_, .atom (name i), by simp [written, assemble, spelled, InfixToken.text]⟩
  | join left right ihl ihr =>
    obtain ⟨tokens, hl, hleft⟩ := ihl
    obtain ⟨tokens', hr, hright⟩ := ihr
    refine ⟨_, .product hl hr, ?_⟩
    have htext : ((join left right).written name).toList =
        (inBrackets (left.written name) (right.written name)).toList := rfl
    rw [htext, toList_inBrackets, hleft, hright]
    simp [spelled, InfixToken.text]

theorem mem_written {b : Bracketing} {c : Char} (h : c ∈ (b.written name).toList) :
    c ∈ separators ∨ ∃ i ∈ b.operands, c ∈ (name i).toList := by
  induction b with
  | operand i => exact Or.inr ⟨i, List.mem_singleton_self i, h⟩
  | join left right ihl ihr =>
    have htext : ((join left right).written name).toList =
        (inBrackets (left.written name) (right.written name)).toList := rfl
    rw [htext, toList_inBrackets] at h
    simp only [List.mem_cons, List.mem_append, List.not_mem_nil, or_false] at h
    rcases h with rfl | h | rfl | rfl | rfl | h | rfl
    · exact Or.inl (by decide)
    · exact (ihl h).imp_right fun hname => hname.imp fun i hi => ⟨List.mem_append_left _ hi.1, hi.2⟩
    · exact Or.inl (by decide)
    · exact Or.inl (by decide)
    · exact Or.inl (by decide)
    · exact (ihr h).imp_right fun hname => hname.imp fun i hi => ⟨List.mem_append_right _ hi.1, hi.2⟩
    · exact Or.inl (by decide)

/-- The text of a bracketing over words reads as the bracketing, and as nothing else. -/
theorem reads_written {b : Bracketing} (words : ∀ i ∈ b.operands, IsWord separators (name i)) (s : Skeleton String) :
    Reads (b.written name) s ↔ s = b.named name := by
  obtain ⟨tokens, hbracketed, htext⟩ := b.exists_fullyBracketed name
  have hscan : scan separators (b.written name) = tokens :=
    (hbracketed.scansBack (by simpa using words)).scan htext
  rw [Reads, hscan]
  exact ⟨fun h => h.unique hbracketed, fun h => h ▸ hbracketed⟩

end Bracketing

namespace Tableau

def namesOf (t : Tableau) (names : Option (List String)) : List String :=
  names.getD (defaultNames t.length)

theorem bracketed_eq {t : Tableau} (within : t.SplitsWithin) (operand : 0 < t.length) {names : Option (List String)}
    (count : (t.namesOf names).length = t.length) :
    t.bracketed names = .ok ((t.bracketing 0 (t.length - 1)).written fun i => (t.namesOf names).getD i "") := by
  have hsize : (t.namesOf names).toArray.size = t.length := by simpa using count
  have hspans := bracketing_spans within (Nat.zero_le (t.length - 1)) (Nat.sub_one_lt_of_lt operand)
  have hassociate := associate_eq (m := Except Fault) (t.namesOf names).toArray
    (fun left right => pure (inBrackets left right)) within hsize (hsize ▸ operand)
  refine hassociate.trans (Bracketing.assembleM_pure (fun i hi => ?_) fun _ _ => rfl)
  rw [hspans.operands_eq, List.mem_range'_1] at hi
  have hlt : i < (t.namesOf names).toArray.size := by omega
  rw [operandValue_of_lt hlt]
  simp at hlt
  simp [hlt]

end Tableau
end MatrixChain
