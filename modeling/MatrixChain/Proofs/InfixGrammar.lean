import MatrixChain.Proofs.Scanning
import MatrixChain.Proofs.Skeleton

/-!
# The grammar of the infix notation

Sums of products of operands, all grouping to the left, where brackets make an operand of a sum. The reader goes through
the tokens once and keeps, for each open bracket, the sum and the product that wait for their right operand. It reads
exactly what the grammar derives, so no sequence of tokens has two derivations.
-/

namespace MatrixChain

section Runs

variable {σ τ : Type} {f : σ → τ → Option σ} {s t : σ}

theorem foldlM_cons_eq_some_iff {x : τ} {xs : List τ} :
    (x :: xs).foldlM f s = some t ↔ ∃ next, f s x = some next ∧ xs.foldlM f next = some t := by
  rw [List.foldlM_cons]
  exact Option.bind_eq_some_iff

theorem foldlM_append_eq_some_iff {xs ys : List τ} :
    (xs ++ ys).foldlM f s = some t ↔ ∃ next, xs.foldlM f s = some next ∧ ys.foldlM f next = some t := by
  rw [List.foldlM_append]
  exact Option.bind_eq_some_iff

end Runs

namespace Infix

open InfixToken

/-- What a part of an expression may be, the loosest first. -/
inductive Level where
  | sum
  | product
  | operand

inductive Derives : Level → List InfixToken → Skeleton String → Prop where
  | atom (text : String) : Derives .operand [.atom text] (.atom text)
  | bracketed {tokens : List InfixToken} {s : Skeleton String} (h : Derives .sum tokens s) :
      Derives .operand (.opening :: tokens ++ [.closing]) s
  | operand {tokens : List InfixToken} {s : Skeleton String} (h : Derives .operand tokens s) :
      Derives .product tokens s
  | times {tokens tokens' : List InfixToken} {s s' : Skeleton String} (hl : Derives .product tokens s)
      (hr : Derives .operand tokens' s') : Derives .product (tokens ++ .times :: tokens') (.product s s')
  | product {tokens : List InfixToken} {s : Skeleton String} (h : Derives .product tokens s) :
      Derives .sum tokens s
  | plus {tokens tokens' : List InfixToken} {s s' : Skeleton String} (hl : Derives .sum tokens s)
      (hr : Derives .product tokens' s') : Derives .sum (tokens ++ .plus :: tokens') (.sum s s')

/-- What stands before an operand within one pair of brackets: the sum up to the last `+`, and the product since then up
to the last `*`. -/
structure Context where
  sum : Option (Skeleton String)
  product : Option (Skeleton String)

namespace Context

def empty : Context :=
  ⟨none, none⟩

def productWith (c : Context) (operand : Skeleton String) : Skeleton String :=
  match c.product with
  | none => operand
  | some product => .product product operand

def sumWith (c : Context) (operand : Skeleton String) : Skeleton String :=
  match c.sum with
  | none => c.productWith operand
  | some sum => .sum sum (c.productWith operand)

end Context

/-- How far reading has come: before or after an operand, in the innermost brackets that are open and those around. -/
inductive Progress where
  | before (inner : Context) (around : List Context)
  | after (operand : Skeleton String) (inner : Context) (around : List Context)

namespace Progress

def step : Progress → InfixToken → Option Progress
  | before inner around, .atom text => some (after (.atom text) inner around)
  | before inner around, .opening => some (before .empty (inner :: around))
  | after operand inner around, .times => some (before ⟨inner.sum, some (inner.productWith operand)⟩ around)
  | after operand inner around, .plus => some (before ⟨some (inner.sumWith operand), none⟩ around)
  | after operand inner (outer :: around), .closing => some (after (inner.sumWith operand) outer around)
  | _, _ => none

def result? : Progress → Option (Skeleton String)
  | after operand inner [] => some (inner.sumWith operand)
  | _ => none

end Progress

open Progress

def readTokens? (tokens : List InfixToken) : Option (Skeleton String) :=
  (tokens.foldlM step (.before .empty [])).bind result?

section Completeness

/-- How the reader gets through tokens for a part of the expression. An operand is read in any context, a product where
no product waits, and a sum where nothing waits. -/
def Passes (tokens : List InfixToken) (s : Skeleton String) : Level → Prop
  | .operand => ∀ inner around, tokens.foldlM step (before inner around) = some (after s inner around)
  | .product => ∀ sum around, ∃ operand product,
      tokens.foldlM step (before ⟨sum, none⟩ around) = some (after operand ⟨sum, product⟩ around) ∧
        Context.productWith ⟨sum, product⟩ operand = s
  | .sum => ∀ around, ∃ operand inner,
      tokens.foldlM step (before .empty around) = some (after operand inner around) ∧ inner.sumWith operand = s

theorem Derives.passes {level : Level} {tokens : List InfixToken} {s : Skeleton String}
    (h : Derives level tokens s) : Passes tokens s level := by
  induction h with
  | atom text => exact fun _ _ => rfl
  -- the sum in brackets begins in an empty context, and its value is an operand of the one around it
  | bracketed _ ih =>
    intro inner around
    obtain ⟨operand, inner', hrun, hsum⟩ := ih (inner :: around)
    have hopen : step (before inner around) .opening = some (before .empty (inner :: around)) := rfl
    have hclose : step (after operand inner' (inner :: around)) .closing =
        some (after (inner'.sumWith operand) inner around) := rfl
    simp [List.foldlM_append, hopen, hrun, hclose, hsum]
  | operand _ ih => exact fun sum around => ⟨_, none, ih _ around, rfl⟩
  | times _ _ ihl ihr =>
    intro sum around
    obtain ⟨operand, product, hrun, hproduct⟩ := ihl sum around
    have htimes : step (after operand ⟨sum, product⟩ around) .times =
        some (before ⟨sum, some (Context.productWith ⟨sum, product⟩ operand)⟩ around) := rfl
    refine ⟨_, some (Context.productWith ⟨sum, product⟩ operand), ?_, by rw [hproduct]; rfl⟩
    simpa [List.foldlM_append, hrun, htimes] using ihr _ around
  | product _ ih =>
    intro around
    obtain ⟨operand, product, hrun, hproduct⟩ := ih none around
    exact ⟨operand, ⟨none, product⟩, hrun, hproduct⟩
  | plus _ _ ihl ihr =>
    intro around
    obtain ⟨operand, inner, hrun, hsum⟩ := ihl around
    obtain ⟨operand', product, hrun', hproduct⟩ := ihr (some (inner.sumWith operand)) around
    have hplus : step (after operand inner around) .plus =
        some (before ⟨some (inner.sumWith operand), none⟩ around) := rfl
    refine ⟨operand', ⟨some (inner.sumWith operand), product⟩, ?_, ?_⟩
    · simp [List.foldlM_append, hrun, hplus, hrun']
    · rw [← hsum, ← hproduct]
      rfl

end Completeness

section Soundness

/-- The tokens of an expression that waits for its right operand, with the operator. -/
inductive Waiting (level : Level) (operator : InfixToken) : Option (Skeleton String) → List InfixToken → Prop where
  | nothing : Waiting level operator none []
  | some {tokens : List InfixToken} {s : Skeleton String} (h : Derives level tokens s) :
      Waiting level operator (some s) (tokens ++ [operator])

inductive Context.Comes : Context → List InfixToken → Prop where
  | mk {sum product : Option (Skeleton String)} {tokens tokens' : List InfixToken}
      (hsum : Waiting .sum .plus sum tokens) (hproduct : Waiting .product .times product tokens') :
      Comes ⟨sum, product⟩ (tokens ++ tokens')

inductive Surrounds : List Context → List InfixToken → Prop where
  | nil : Surrounds [] []
  | cons {inner : Context} {around : List Context} {tokens tokens' : List InfixToken} (h : Surrounds around tokens)
      (hinner : inner.Comes tokens') : Surrounds (inner :: around) (tokens ++ tokens' ++ [.opening])

inductive Progress.Comes : Progress → List InfixToken → Prop where
  | before {inner : Context} {around : List Context} {tokens tokens' : List InfixToken} (h : Surrounds around tokens)
      (hinner : inner.Comes tokens') : Comes (.before inner around) (tokens ++ tokens')
  | after {operand : Skeleton String} {inner : Context} {around : List Context}
      {tokens tokens' tokens'' : List InfixToken} (h : Surrounds around tokens) (hinner : inner.Comes tokens')
      (hoperand : Derives .operand tokens'' operand) :
      Comes (.after operand inner around) (tokens ++ tokens' ++ tokens'')

theorem Context.comes_empty : Context.empty.Comes [] :=
  .mk .nothing .nothing

theorem Waiting.productWith {sum product : Option (Skeleton String)} {operand : Skeleton String}
    {tokens tokens' : List InfixToken} (h : Waiting .product .times product tokens)
    (hoperand : Derives .operand tokens' operand) :
    Derives .product (tokens ++ tokens') (Context.productWith ⟨sum, product⟩ operand) := by
  cases h with
  | nothing => exact .operand hoperand
  | some h =>
    rw [List.append_assoc]
    exact .times h hoperand

theorem Context.Comes.sumWith {c : Context} {operand : Skeleton String} {tokens tokens' : List InfixToken}
    (h : c.Comes tokens) (hoperand : Derives .operand tokens' operand) :
    Derives .sum (tokens ++ tokens') (c.sumWith operand) := by
  obtain ⟨hsum, hproduct⟩ := h
  rw [List.append_assoc]
  cases hsum with
  | nothing => exact .product (hproduct.productWith hoperand)
  | some h =>
    rw [List.append_assoc]
    exact .plus h (hproduct.productWith hoperand)

theorem Progress.Comes.step {p q : Progress} {tokens : List InfixToken} {token : InfixToken} (h : p.Comes tokens)
    (hstep : p.step token = some q) : q.Comes (tokens ++ [token]) := by
  cases h with
  | before h hinner =>
    cases token with
    | atom text =>
      cases hstep
      exact .after h hinner (.atom text)
    | opening =>
      cases hstep
      simpa using Comes.before (h.cons hinner) Context.comes_empty
    | _ => cases hstep
  | @after operand inner around tokens tokens' tokens'' h hinner hoperand =>
    cases token with
    | times =>
      cases hstep
      obtain ⟨hsum, hproduct⟩ := hinner
      simpa using Comes.before h (.mk hsum (.some (hproduct.productWith hoperand)))
    | plus =>
      cases hstep
      simpa using Comes.before h (.mk (.some (hinner.sumWith hoperand)) .nothing)
    -- a bracket closes only where one is open; what it encloses is a sum, and an operand for what stands before it
    | closing =>
      cases h with
      | nil => cases hstep
      | cons houter hcontext =>
        cases hstep
        simpa using Comes.after houter hcontext (.bracketed (hinner.sumWith hoperand))
    | _ => cases hstep

theorem Progress.Comes.run {p q : Progress} {done tokens : List InfixToken} (h : p.Comes done)
    (hrun : tokens.foldlM Progress.step p = some q) : q.Comes (done ++ tokens) := by
  induction tokens generalizing p done with
  | nil =>
    obtain rfl := Option.some.inj hrun
    rwa [List.append_nil]
  | cons token tokens ih =>
    obtain ⟨next, hstep, hrest⟩ := foldlM_cons_eq_some_iff.1 hrun
    have hnext := ih (h.step hstep) hrest
    rwa [List.append_assoc] at hnext

theorem Progress.Comes.result {p : Progress} {tokens : List InfixToken} {s : Skeleton String} (h : p.Comes tokens)
    (hresult : p.result? = some s) : Derives .sum tokens s := by
  cases h with
  | before => cases hresult
  | after h hinner hoperand =>
    cases h with
    | nil =>
      obtain rfl := Option.some.inj hresult
      exact hinner.sumWith hoperand
    | cons => cases hresult

end Soundness

/-- The reader reads exactly what the grammar derives. -/
theorem readTokens?_eq_some_iff {tokens : List InfixToken} {s : Skeleton String} :
    readTokens? tokens = some s ↔ Derives .sum tokens s := by
  constructor
  · intro h
    obtain ⟨p, hrun, hresult⟩ := Option.bind_eq_some_iff.1 h
    have hstart : (Progress.before .empty []).Comes [] := .before .nil Context.comes_empty
    exact (hstart.run hrun).result hresult
  · intro h
    obtain ⟨operand, inner, hrun, hsum⟩ := h.passes []
    rw [readTokens?, hrun, ← hsum]
    rfl

/-- No sequence of tokens has two derivations. -/
theorem Derives.unique {tokens : List InfixToken} {s s' : Skeleton String} (h : Derives .sum tokens s)
    (h' : Derives .sum tokens s') : s = s' :=
  Option.some.inj ((readTokens?_eq_some_iff.2 h).symm.trans (readTokens?_eq_some_iff.2 h'))

end Infix
end MatrixChain
