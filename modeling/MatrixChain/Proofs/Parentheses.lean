import MatrixChain.Proofs.InfixNotation

/-!
# No parentheses too many

Without a matched pair of its parentheses the text of an expression still reads as a sum of products over the same atoms,
but not as the expression. The reader goes on where the tokens nest, whatever the brackets enclose. What it reads then is
another tree, because no tokens of the expression are shorter than those that the notation writes.
-/

namespace MatrixChain

open Infix InfixToken

def unnest : Nat → Option Nat
  | 0 => none
  | depth + 1 => some depth

/-- How deep parentheses are nested behind a character. -/
def nesting (depth : Nat) (c : Char) : Option Nat :=
  if c = '(' then some (depth + 1)
  else if c = ')' then unnest depth
  else some depth

/-- Every parenthesis is closed, and none but those that were opened. -/
def Balanced (chars : List Char) : Prop :=
  chars.foldlM nesting 0 = some 0

instance (chars : List Char) : Decidable (Balanced chars) :=
  inferInstanceAs (Decidable (_ = _))

namespace InfixToken

def nest (depth : Nat) : InfixToken → Option Nat
  | opening => some (depth + 1)
  | closing => unnest depth
  | _ => some depth

def wordsOf : List InfixToken → List String
  | [] => []
  | atom text :: tokens => text :: wordsOf tokens
  | _ :: tokens => wordsOf tokens

@[simp] theorem wordsOf_append (tokens tokens' : List InfixToken) :
    wordsOf (tokens ++ tokens') = wordsOf tokens ++ wordsOf tokens' := by
  induction tokens with
  | nil => rfl
  | cons token tokens ih => cases token <;> simp [wordsOf, ih]

theorem mem_wordsOf {tokens : List InfixToken} {text : String} : text ∈ wordsOf tokens ↔ atom text ∈ tokens := by
  induction tokens with
  | nil => simp [wordsOf]
  | cons token tokens ih => cases token <;> simp [wordsOf, ih]

section Nesting

variable {tokens : List InfixToken} {depth depth' : Nat}

theorem foldlM_nest_add (h : tokens.foldlM nest depth = some depth') (around : Nat) :
    tokens.foldlM nest (depth + around) = some (depth' + around) := by
  induction tokens generalizing depth with
  | nil =>
    obtain rfl := Option.some.inj h
    rfl
  | cons token tokens ih =>
    obtain ⟨next, hnext, hrest⟩ := foldlM_cons_eq_some_iff.1 h
    have hstep : nest (depth + around) token = some (next + around) := by
      cases token with
      | opening =>
        obtain rfl := Option.some.inj hnext
        exact congrArg some (Nat.add_right_comm ..)
      | closing =>
        cases depth with
        | zero => cases hnext
        | succ depth =>
          obtain rfl := Option.some.inj hnext
          rw [Nat.add_right_comm]
          rfl
      | _ =>
        obtain rfl := Option.some.inj hnext
        rfl
    exact foldlM_cons_eq_some_iff.2 ⟨_, hstep, ih hrest⟩

theorem foldlM_nesting_of_notMem {chars : List Char} (opening : '(' ∉ chars) (closing : ')' ∉ chars) (depth : Nat) :
    chars.foldlM nesting depth = some depth := by
  induction chars with
  | nil => rfl
  | cons c chars ih =>
    rw [List.mem_cons, not_or] at opening closing
    rw [List.foldlM_cons, nesting, if_neg (Ne.symm opening.1), if_neg (Ne.symm closing.1)]
    exact ih opening.2 closing.2

theorem foldlM_nesting_spelled (words : ∀ text ∈ wordsOf tokens, IsWord Infix.separators text) (depth : Nat) :
    (spelled tokens).foldlM nesting depth = tokens.foldlM nest depth := by
  induction tokens generalizing depth with
  | nil => rfl
  | cons token tokens ih =>
    have hrest : ∀ text ∈ wordsOf tokens, IsWord Infix.separators text := by
      cases token with
      | atom text => exact fun text h => words text (List.mem_cons_of_mem _ h)
      | _ => exact words
    have hstep : token.text.toList.foldlM nesting depth = nest depth token := by
      cases token with
      | atom text =>
        have hword := (words text List.mem_cons_self).2
        exact foldlM_nesting_of_notMem (fun h => hword _ h (by decide)) (fun h => hword _ h (by decide)) depth
      | closing => exact bind_pure (unnest depth)
      | _ => rfl
    rw [spelled_cons, List.foldlM_append, hstep, List.foldlM_cons]
    exact congrArg _ (funext fun next => ih hrest next)

/-- A character that is the text of one token, and in the text of no other one, is found as this token. -/
theorem split_spelled {token : InfixToken} {c : Char} (text : token.text.toList = [c])
    (only : ∀ t ∈ tokens, c ∈ t.text.toList → t = token) {before after : List Char}
    (h : spelled tokens = before ++ c :: after) :
    ∃ tokens₁ tokens₂, tokens = tokens₁ ++ token :: tokens₂ ∧ spelled tokens₁ = before ∧ spelled tokens₂ = after := by
  induction tokens generalizing before with
  | nil => exact absurd h.symm (by simp [spelled])
  | cons t tokens ih =>
    have honly : ∀ t' ∈ tokens, c ∈ t'.text.toList → t' = token := fun t' ht' => only t' (List.mem_cons_of_mem t ht')
    rw [spelled_cons, List.append_eq_append_iff] at h
    -- the character lies behind the first token, begins right there, or belongs to it
    rcases h with ⟨between, rfl, hrest⟩ | ⟨last, htext, hrest⟩
    · obtain ⟨tokens₁, tokens₂, rfl, rfl, rfl⟩ := ih honly hrest
      exact ⟨t :: tokens₁, tokens₂, rfl, spelled_cons .., rfl⟩
    · cases last with
      | nil =>
        have hhere : spelled tokens = [] ++ c :: after := hrest.symm
        obtain ⟨tokens₁, tokens₂, rfl, hnone, rfl⟩ := ih honly hhere
        exact ⟨t :: tokens₁, tokens₂, rfl, by rw [spelled_cons, hnone, htext, List.append_nil, List.append_nil], rfl⟩
      | cons c' last =>
        obtain ⟨rfl, rfl⟩ := List.cons.inj hrest
        obtain rfl := only t List.mem_cons_self (htext ▸ List.mem_append_right before List.mem_cons_self)
        have hone : [c] = before ++ c :: last := text.symm.trans htext
        rcases List.singleton_eq_append_iff.1 hone with ⟨rfl, hlast⟩ | ⟨_, hnone⟩
        · obtain rfl := (List.cons.inj hlast).2
          exact ⟨[], tokens, rfl, rfl, rfl⟩
        · cases hnone

end Nesting

theorem eq_of_mem_text {c : Char} {token : InfixToken} (separator : c ∈ Infix.separators)
    (itself : ofSeparator c = [token]) (words : ∀ text ∈ wordsOf tokens, IsWord Infix.separators text) :
    ∀ t ∈ tokens, c ∈ t.text.toList → t = token := by
  intro t ht hmem
  by_cases hatom : ∃ text, t = atom text
  · obtain ⟨text, rfl⟩ := hatom
    exact absurd separator ((words text (mem_wordsOf.2 ht)).2 c hmem)
  · have hseparates : Separates Infix.separators t := by
      cases t with
      | atom text => exact absurd ⟨text, rfl⟩ hatom
      | _ => decide
    have htoken : token ∈ t.text.toList.flatMap ofSeparator :=
      List.mem_flatMap.2 ⟨c, hmem, itself ▸ List.mem_singleton_self token⟩
    rw [hseparates.2] at htoken
    exact (List.mem_singleton.1 htoken).symm

end InfixToken

namespace Infix

namespace Progress

def depth : Progress → Nat
  | before _ around => around.length
  | after _ _ around => around.length

def isAfter : Progress → Bool
  | before .. => false
  | after .. => true

variable {p p' q : Progress} {token : InfixToken} {tokens : List InfixToken} {n : Nat}

/-- The reader keeps count of the brackets. -/
theorem nest_of_step (h : p.step token = some p') : nest p.depth token = some p'.depth := by
  cases p with
  | before inner around => cases token <;> cases h <;> rfl
  | after operand inner around =>
    cases token with
    | closing =>
      cases around with
      | nil => cases h
      | cons outer around =>
        cases h
        rfl
    | _ => cases h <;> rfl

/-- Whether a token can be read depends on what was read last and on how many brackets are open, and on nothing else. -/
theorem exists_step (h : p.step token = some p') (alike : q.isAfter = p.isAfter) (nests : nest q.depth token = some n) :
    ∃ q', q.step token = some q' ∧ q'.isAfter = p'.isAfter ∧ q'.depth = n := by
  cases p with
  | before inner around =>
    cases q with
    | after => cases alike
    | before inner' around' =>
      cases token <;> cases h <;> cases nests <;> exact ⟨_, rfl, rfl, rfl⟩
  | after operand inner around =>
    cases q with
    | before => cases alike
    | after operand' inner' around' =>
      cases token with
      -- here a bracket closes because the tokens nest, and there because it did
      | closing =>
        cases around' with
        | nil => cases nests
        | cons outer' around' =>
          cases around with
          | nil => cases h
          | cons =>
            cases h
            cases nests
            exact ⟨_, rfl, rfl, rfl⟩
      | _ => cases h <;> cases nests <;> exact ⟨_, rfl, rfl, rfl⟩

theorem nest_of_run (h : tokens.foldlM step p = some p') : tokens.foldlM nest p.depth = some p'.depth := by
  induction tokens generalizing p with
  | nil =>
    obtain rfl := Option.some.inj h
    rfl
  | cons token tokens ih =>
    obtain ⟨next, hnext, hrest⟩ := foldlM_cons_eq_some_iff.1 h
    exact foldlM_cons_eq_some_iff.2 ⟨_, nest_of_step hnext, ih hrest⟩

/-- What is read at one place can be read wherever it nests. -/
theorem exists_run (h : tokens.foldlM step p = some p') (alike : q.isAfter = p.isAfter)
    (nests : tokens.foldlM nest q.depth = some n) :
    ∃ q', tokens.foldlM step q = some q' ∧ q'.isAfter = p'.isAfter ∧ q'.depth = n := by
  induction tokens generalizing p q with
  | nil =>
    obtain rfl := Option.some.inj h
    obtain rfl := Option.some.inj nests
    exact ⟨q, rfl, alike, rfl⟩
  | cons token tokens ih =>
    obtain ⟨next, hnext, hrest⟩ := foldlM_cons_eq_some_iff.1 h
    obtain ⟨m, hm, hnests⟩ := foldlM_cons_eq_some_iff.1 nests
    obtain ⟨q', hstep, halike, rfl⟩ := exists_step hnext alike hm
    obtain ⟨q'', hrun, hafter, hdepth⟩ := ih hrest halike hnests
    exact ⟨q'', foldlM_cons_eq_some_iff.2 ⟨q', hstep, hrun⟩, hafter, hdepth⟩

theorem isAfter_of_opening (h : p.step .opening = some p') : p.isAfter = false ∧ p'.isAfter = false := by
  cases p <;> cases h
  exact ⟨rfl, rfl⟩

theorem isAfter_of_closing (h : p.step .closing = some p') : p.isAfter = true ∧ p'.isAfter = true := by
  cases p with
  | before => cases h
  | after operand inner around =>
    cases around <;> cases h
    exact ⟨rfl, rfl⟩

theorem exists_result_iff : (∃ s, p.result? = some s) ↔ p.isAfter = true ∧ p.depth = 0 := by
  cases p with
  | before => simp [result?, isAfter]
  | after operand inner around => cases around <;> simp [result?, isAfter, depth]

end Progress

open Progress

section Tokens

variable {tokens tokens₁ tokens₂ tokens₃ : List InfixToken} {s : Skeleton String}

theorem Derives.wordsOf_eq {level : Level} (h : Derives level tokens s) : wordsOf tokens = s.atoms := by
  induction h with
  | atom text => rfl
  | bracketed _ ih => simpa [wordsOf] using ih
  | operand _ ih => exact ih
  | times _ _ ihl ihr => simp [wordsOf, ihl, ihr, Skeleton.atoms]
  | product _ ih => exact ih
  | plus _ _ ihl ihr => simp [wordsOf, ihl, ihr, Skeleton.atoms]

/-- Tokens can still be read without a matched pair of brackets. -/
theorem Derives.exists_without (h : Derives .sum (tokens₁ ++ .opening :: (tokens₂ ++ .closing :: tokens₃)) s)
    (matched : tokens₂.foldlM nest 0 = some 0) : ∃ s', Derives .sum (tokens₁ ++ (tokens₂ ++ tokens₃)) s' := by
  obtain ⟨done, hrun, hresult⟩ := Option.bind_eq_some_iff.1 (readTokens?_eq_some_iff.2 h)
  obtain ⟨p, hbefore, hrun⟩ := foldlM_append_eq_some_iff.1 hrun
  obtain ⟨opened, hopening, hrun⟩ := foldlM_cons_eq_some_iff.1 hrun
  obtain ⟨enclosed, hinside, hrun⟩ := foldlM_append_eq_some_iff.1 hrun
  obtain ⟨left, hclosing, hafter⟩ := foldlM_cons_eq_some_iff.1 hrun
  obtain ⟨hp, hopened⟩ := isAfter_of_opening hopening
  obtain ⟨henclosed, hleft⟩ := isAfter_of_closing hclosing
  obtain ⟨hdone, hnone⟩ := exists_result_iff.1 ⟨s, hresult⟩
  have hnests : ∀ around, tokens₂.foldlM nest around = some around := fun around => by
    simpa using foldlM_nest_add matched around
  have hlevel : left.depth = p.depth := by
    have hdeeper : p.depth + 1 = opened.depth := Option.some.inj (nest_of_step hopening)
    have hsame : opened.depth = enclosed.depth := Option.some.inj ((hnests _).symm.trans (nest_of_run hinside))
    have hback := nest_of_step hclosing
    rw [← hsame, ← hdeeper] at hback
    exact (Option.some.inj hback).symm
  -- what the brackets enclose is read one level further out, and what follows at the level that it was read at
  obtain ⟨q, hq, hafterq, hdepthq⟩ := exists_run hinside (hp.trans hopened.symm) (hnests p.depth)
  have hrest := nest_of_run hafter
  rw [hlevel, ← hdepthq] at hrest
  obtain ⟨q', hq', hafterq', hdepthq'⟩ := exists_run hafter (hafterq.trans (henclosed.trans hleft.symm)) hrest
  obtain ⟨s', hs'⟩ := exists_result_iff.2 ⟨hafterq'.trans hdone, hdepthq'.trans hnone⟩
  have hread := foldlM_append_eq_some_iff.2 ⟨p, hbefore, foldlM_append_eq_some_iff.2 ⟨q, hq, hq'⟩⟩
  exact ⟨s', readTokens?_eq_some_iff.1 (Option.bind_eq_some_iff.2 ⟨q', hread, hs'⟩)⟩

end Tokens

end Infix

namespace Skeleton

def tokensAt (s : Skeleton String) : Level → List InfixToken
  | .sum => s.infixTokens
  | .product => Expr.parenthesizedIf s.isSum s.infixTokens
  | .operand => Expr.parenthesizedIf (s.isSum || s.isProduct) s.infixTokens

theorem length_inParentheses (tokens : List InfixToken) :
    (Expr.parenthesizedIf true tokens).length = tokens.length + 2 := by
  simp [Expr.parenthesizedIf]

theorem length_tokensAt_operand_le (s : Skeleton String) : (s.tokensAt .operand).length ≤ s.infixTokens.length + 2 := by
  cases s with
  | atom text => exact Nat.le_add_right _ 2
  | _ => exact Nat.le_of_eq (length_inParentheses _)

theorem length_tokensAt_product_le (s : Skeleton String) :
    (s.tokensAt .product).length ≤ (s.tokensAt .operand).length := by
  cases s with
  | product left right => exact (length_inParentheses _).symm ▸ Nat.le_add_right _ 2
  | _ => exact Nat.le_refl _

theorem length_infixTokens_le (s : Skeleton String) : s.infixTokens.length ≤ (s.tokensAt .product).length := by
  cases s with
  | sum left right => exact (length_inParentheses _).symm ▸ Nat.le_add_right _ 2
  | _ => exact Nat.le_refl _

end Skeleton

namespace Infix

/-- No tokens for a tree are shorter than those of the notation. -/
theorem Derives.length_le {level : Level} {tokens : List InfixToken} {s : Skeleton String}
    (h : Derives level tokens s) : (s.tokensAt level).length ≤ tokens.length := by
  induction h with
  | atom text => exact Nat.le_refl _
  | @bracketed tokens s _ ih =>
    have hbracketed := Skeleton.length_tokensAt_operand_le s
    rw [Skeleton.tokensAt] at ih
    simp only [List.length_append, List.length_cons, List.length_nil]
    omega
  | operand _ ih => exact Nat.le_trans (Skeleton.length_tokensAt_product_le _) ih
  | @times tokens tokens' s s' _ _ ihl ihr =>
    have hsplit : (Skeleton.product s s').tokensAt .product = s.tokensAt .product ++ .times :: s'.tokensAt .operand := rfl
    rw [hsplit]
    simp only [List.length_append, List.length_cons]
    omega
  | product _ ih => exact Nat.le_trans (Skeleton.length_infixTokens_le _) ih
  | @plus tokens tokens' s s' _ _ ihl ihr =>
    have hsplit : (Skeleton.sum s s').tokensAt .sum = s.tokensAt .sum ++ .plus :: s'.tokensAt .product := rfl
    rw [hsplit]
    simp only [List.length_append, List.length_cons]
    omega

end Infix

namespace Expr

variable {α : Type}

/-- Each matched pair of parentheses is needed: the text without it reads in one way, over the same atoms, and not as the
expression. -/
theorem infixText_without_parentheses {e : Expr α} (legible : e.Legible) {before inside after : List Char}
    (text : e.infixText.toList = before ++ '(' :: (inside ++ ')' :: after)) (matched : Balanced inside) :
    ∃ s, (∀ s', Derives .sum (scan separators (String.ofList (before ++ (inside ++ after)))) s' ↔ s' = s) ∧
      s.atoms = e.rendering.atoms ∧ s ≠ e.rendering := by
  have hderives := Skeleton.derives_sum e.rendering.derives_infixTokens
  have hwords : ∀ text ∈ wordsOf e.rendering.infixTokens, IsWord separators text := by
    rw [hderives.wordsOf_eq]
    exact legible
  rw [toList_infixText, infixTokens_eq] at text
  obtain ⟨tokens₁, rest, hrest, rfl, hspelled⟩ := split_spelled rfl (eq_of_mem_text (by decide) rfl hwords) text
  rw [hrest] at hderives hwords
  have hwordsRest : ∀ text ∈ wordsOf rest, IsWord separators text := fun text h => hwords text (by simp [wordsOf, h])
  obtain ⟨tokens₂, tokens₃, rfl, rfl, rfl⟩ := split_spelled rfl (eq_of_mem_text (by decide) rfl hwordsRest) hspelled
  have hwordsInside : ∀ text ∈ wordsOf tokens₂, IsWord separators text := fun text h => hwordsRest text (by simp [h])
  rw [Balanced, foldlM_nesting_spelled hwordsInside] at matched
  obtain ⟨s, hs⟩ := hderives.exists_without matched
  have hatoms : s.atoms = e.rendering.atoms := by
    rw [← hs.wordsOf_eq, ← hderives.wordsOf_eq]
    simp [wordsOf]
  have hscan : scan separators (String.ofList (spelled tokens₁ ++ (spelled tokens₂ ++ spelled tokens₃))) =
      tokens₁ ++ (tokens₂ ++ tokens₃) := by
    refine (hs.scansBack ?_).scan (by simp)
    rw [hatoms]
    exact legible
  refine ⟨s, fun s' => ?_, hatoms, ?_⟩
  · rw [hscan]
    exact ⟨fun h => h.unique hs, fun h => h ▸ hs⟩
  · rintro rfl
    have hlength := hs.length_le
    rw [Skeleton.tokensAt, hrest] at hlength
    simp only [List.length_append, List.length_cons] at hlength
    omega

theorem infixText_without_parentheses_of_grouped :
    groupedRight.Legible ∧
      groupedRight.infixText.toList = [] ++ '(' :: ("A + [1x1]".toList ++ ')' :: " * (B * C)".toList) ∧
      Balanced "A + [1x1]".toList ∧
      ∃ s, (∀ s', Derives .sum (scan separators "A + [1x1] * (B * C)") s' ↔ s' = s) ∧
        s = .sum (.atom "A") (.product (.atom "[1x1]") (.product (.atom "B") (.atom "C"))) ∧
        s ≠ groupedRight.rendering := by
  have legible : groupedRight.Legible := by decide
  have htext : groupedRight.infixText.toList = [] ++ '(' :: ("A + [1x1]".toList ++ ')' :: " * (B * C)".toList) := by
    decide
  have matched : Balanced "A + [1x1]".toList := by decide
  obtain ⟨s, hreads, _, hdiffer⟩ := infixText_without_parentheses legible htext matched
  have hread : read? "A + [1x1] * (B * C)" =
      some (.sum (.atom "A") (.product (.atom "[1x1]") (.product (.atom "B") (.atom "C")))) := rfl
  exact ⟨legible, htext, matched, s, hreads, ((hreads _).1 (readTokens?_eq_some_iff.1 hread)).symm, hdiffer⟩

end Expr
end MatrixChain
