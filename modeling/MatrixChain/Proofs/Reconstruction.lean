import MatrixChain.Proofs.CheapestBracketing
import MatrixChain.Proofs.Noting

/-!
# Association as a recursion on spans

What associating operands comes to for any table with sound splits, made by the dynamic program or by hand: the
recursion that joins the two parts of a span, with one call for each product, the left part before the right part before
the join, and no call after one that fails.
-/

namespace MatrixChain

variable {β γ δ ε σ : Type}

/-- A call that joined two values or failed to. -/
structure Call (ε β : Type) where
  left : β
  right : β
  outcome : Except ε β

namespace Call

def AllJoined (calls : List (Call ε β)) : Prop :=
  ∀ call ∈ calls, ∃ value, call.outcome = .ok value

/-- With a value all joins were made. With a fault the last call failed with it, and the calls before did not. -/
def Accounts (joins : Nat) (calls : List (Call ε β)) : Except ε γ → Prop
  | .ok _ => calls.length = joins ∧ AllJoined calls
  | .error fault => ∃ earlier left right, calls = earlier ++ [⟨left, right, .error fault⟩] ∧
      earlier.length < joins ∧ AllJoined earlier

def noted (joined : β → β → ExceptT ε (StateM σ) β) (left right : β) :
    ExceptT ε (StateM (List (Call ε β) × σ)) β :=
  ExceptT.mk fun before =>
    let after := (joined left right).run.run before.2
    pure (after.1, (before.1 ++ [⟨left, right, after.1⟩], after.2))

/-- `y` does what `x` does and notes calls, which account for the outcome by the number of joins. -/
def Noted (joins : Nat) (x : ExceptT ε (StateM σ) γ) (y : ExceptT ε (StateM (List (Call ε β) × σ)) γ) : Prop :=
  ∀ before state, ∃ outcome state' calls, x.run.run state = (outcome, state') ∧
    y.run.run (before, state) = (outcome, (before ++ calls, state')) ∧ Accounts joins calls outcome

theorem noted_pure (c : γ) : Noted (σ := σ) 0 (pure c) (pure c : ExceptT ε (StateM (List (Call ε β) × σ)) γ) :=
  Notes.pure ⟨rfl, List.forall_mem_nil _⟩

theorem noted_noted (joined : β → β → ExceptT ε (StateM σ) β) (left right : β) :
    Noted 1 (joined left right) (noted joined left right) := by
  have h : Notes (joined left right) (withNote (fun outcome => ⟨left, right, outcome⟩) (joined left right))
      (Accounts 1) := by
    refine .withNote (fun outcome => ?_) _
    cases outcome with
    | ok value => exact ⟨rfl, List.forall_mem_singleton.2 ⟨value, rfl⟩⟩
    | error fault => exact ⟨[], left, right, rfl, Nat.zero_lt_one, List.forall_mem_nil _⟩
  exact h

theorem Accounts.ok_append {joins joins' : Nat} {calls calls' : List (Call ε β)} {c : γ} {outcome : Except ε δ}
    (h : Accounts joins calls (.ok c : Except ε γ)) (h' : Accounts joins' calls' outcome) :
    Accounts (joins + joins') (calls ++ calls') outcome := by
  cases outcome with
  | ok d => exact ⟨by rw [List.length_append, h.1, h'.1], List.forall_mem_append.2 ⟨h.2, h'.2⟩⟩
  | error fault =>
    obtain ⟨earlier, left, right, rfl, hlength, hearlier⟩ := h'
    refine ⟨calls ++ earlier, left, right, (List.append_assoc ..).symm, ?_, List.forall_mem_append.2 ⟨h.2, hearlier⟩⟩
    rw [List.length_append, h.1]
    exact Nat.add_lt_add_left hlength joins

/-- After a fault there are no calls, so it accounts for more joins as well. -/
theorem Accounts.error_mono {joins joins' : Nat} {calls : List (Call ε β)} {fault : ε}
    (h : Accounts joins calls (.error fault : Except ε γ)) (hle : joins ≤ joins') :
    Accounts joins' calls (.error fault : Except ε δ) := by
  obtain ⟨earlier, left, right, hcalls, hlength, hearlier⟩ := h
  exact ⟨earlier, left, right, hcalls, Nat.lt_of_lt_of_le hlength hle, hearlier⟩

theorem Noted.bind {joins joins' : Nat} {x : ExceptT ε (StateM σ) γ} {y : ExceptT ε (StateM (List (Call ε β) × σ)) γ}
    {f : γ → ExceptT ε (StateM σ) δ} {g : γ → ExceptT ε (StateM (List (Call ε β) × σ)) δ} (h : Noted joins x y)
    (next : ∀ c, Noted joins' (f c) (g c)) : Noted (joins + joins') (x >>= f) (y >>= g) :=
  Notes.bind h (fun c _ hcalls => Notes.mono (next c) fun _ _ hcalls' => hcalls.ok_append hcalls')
    fun _ _ hcalls => hcalls.error_mono (Nat.le_add_right ..)

end Call

namespace Bracketing

def joins : Bracketing → Nat
  | operand _ => 0
  | join left right => left.joins + (right.joins + 1)

theorem Spans.joins_eq {b : Bracketing} {i j : Nat} (h : b.Spans i j) : b.joins = j - i := by
  induction h with
  | operand i => exact (Nat.sub_self i).symm
  | join hl hr ihl ihr =>
    have hle := hl.le
    have hgt := hr.le
    rw [joins, ihl, ihr]
    omega

theorem noted_assembleM (joined : β → β → ExceptT ε (StateM σ) β) {value : Nat → ExceptT ε (StateM σ) β}
    {value' : Nat → ExceptT ε (StateM (List (Call ε β) × σ)) β} {b : Bracketing}
    (h : ∀ i ∈ b.operands, ∃ x, value i = pure x ∧ value' i = pure x) :
    Call.Noted b.joins (b.assembleM value joined) (b.assembleM value' (Call.noted joined)) := by
  induction b with
  | operand i =>
    obtain ⟨x, hx, hx'⟩ := h i (List.mem_singleton.2 rfl)
    rw [assembleM, assembleM, hx, hx']
    exact Call.noted_pure x
  | join left right ihl ihr =>
    have hl := ihl fun i hi => h i (List.mem_append_left _ hi)
    have hr := ihr fun i hi => h i (List.mem_append_right _ hi)
    exact hl.bind fun l => hr.bind fun r => Call.noted_noted joined l r

end Bracketing

namespace Tableau

open Chain

/-- The recursion on spans: the value of an operand, or the join of the values of both parts. -/
structure Reconstructs {m : Type → Type} [Monad m] (t : Tableau) (operands : Array β) (joined : β → β → m β)
    (value : Nat → Nat → m β) : Prop where
  operand : ∀ i (h : i < operands.size), value i i = pure operands[i]
  join : ∀ first split last : Nat, first ≤ split → split < last → last < t.length →
    entryAt? t.splits first last = some (split : Int) →
      value first last = do
        let left ← value first split
        let right ← value (split + 1) last
        joined left right

section Recursion

variable {m : Type → Type} [Monad m] [MonadExcept Fault m] {t : Tableau} {operands : Array β} {joined : β → β → m β}
  (within : t.SplitsWithin) (size : operands.size = t.length)

theorem reconstructs_bracketing : t.Reconstructs operands joined fun first last =>
    (t.bracketing first last).assembleM (operandValue operands) joined where
  operand i h := by
    rw [bracketing_self]
    exact operandValue_of_lt h
  join first split last hle hgt _ hsplit := by
    rw [bracketing_of_entryAt? hsplit hle hgt]
    rfl

include within size

theorem Reconstructs.eq_assembleM {value : Nat → Nat → m β} (h : t.Reconstructs operands joined value)
    {first last : Nat} (hle : first ≤ last) (hlast : last < t.length) :
    value first last = (t.bracketing first last).assembleM (operandValue operands) joined := by
  induction hlen : last - first using Nat.strongRecOn generalizing first last with
  | ind length ih =>
    rcases Nat.lt_or_eq_of_le hle with hlt | rfl
    · obtain ⟨split, hsplit, hfirst, hgt⟩ := within first last hlt hlast
      rw [h.join first split last hfirst hgt hlast hsplit, bracketing_of_entryAt? hsplit hfirst hgt,
        ih (split - first) (by omega) hfirst (by omega) rfl, ih (last - (split + 1)) (by omega) hgt hlast rfl]
      rfl
    · rw [h.operand first (size ▸ hlast), bracketing_self]
      exact (operandValue_of_lt _).symm

end Recursion

/-- Any number of values but one for each operand is refused, and nothing is joined. -/
theorem associate_eq_throw {m : Type → Type} [Monad m] [MonadExcept Fault m] {t : Tableau} (operand : 0 < t.length)
    {operands : Array β} (size : operands.size ≠ t.length) (joined : β → β → m β) :
    t.associate operands joined = throw (broken t.dimensions (.operandCount operands.size t.length)) := by
  have hlength : t.length = t.dimensions.length - 1 := rfl
  have hcast : ((t.dimensions.length : Int) - 1) = (t.length : Int) := by omega
  rw [associate, if_pos (by omega), hcast]

theorem splitsWithin_of_solve {dimensions : List Int} {t : Tableau} (h : solve dimensions = .ok t) :
    t.SplitsWithin := by
  obtain ⟨_, rfl⟩ := solve_eq_ok_iff.1 h
  exact splitsWithin_ofDimensions dimensions

/-- For a table with sound splits, operands are associated by the recursion on spans, whatever effects joins have. The
stacks of the loop never lack a value: what `combine` would make of fewer values does not matter. There is one call for
each product, or as many as it takes until one fails. Other numbers of operands are refused before any call, and the
tables of the dynamic program have sound splits. -/
theorem associate_reconstructs (t : Tableau) (operand : 0 < t.length) :
    (t.SplitsWithin → ∀ operands : Array β, operands.size = t.length →
      (∀ {m : Type → Type} [Monad m] [LawfulMonad m] [MonadExcept Fault m] (joined : β → β → m β),
        (∃ value, t.Reconstructs operands joined value) ∧
        (∀ value, t.Reconstructs operands joined value →
          t.associate operands joined = value 0 (t.length - 1)) ∧
        ∀ combine, Combines operands joined combine →
          t.associate operands joined =
            Fold.fold t.parts combine ⟨0, (t.length - 1 : Nat), t.depth⟩ (Span.acc_shallower _)) ∧
      ∀ [∀ τ : Type, MonadExcept Fault (ExceptT ε (StateM τ))] (joined : β → β → ExceptT ε (StateM σ) β) (state : σ),
        ∃ outcome state' calls, (t.associate operands joined).run.run state = (outcome, state') ∧
          (t.associate operands (Call.noted joined)).run.run ([], state) = (outcome, (calls, state')) ∧
          Call.Accounts (t.length - 1) calls outcome) ∧
    (∀ operands : Array β, operands.size ≠ t.length →
      ∀ {m : Type → Type} [Monad m] [MonadExcept Fault m] (joined : β → β → m β),
        t.associate operands joined = throw (broken t.dimensions (.operandCount operands.size t.length))) ∧
    ∀ dimensions, solve dimensions = .ok t → t.SplitsWithin := by
  refine ⟨fun within operands size => ⟨fun joined => ⟨⟨_, reconstructs_bracketing⟩, fun value h => ?_,
    fun combine h => ?_⟩, fun joined state => ?_⟩,
    fun operands size _ _ _ joined => associate_eq_throw operand size joined, fun dimensions => splitsWithin_of_solve⟩
  · rw [associate_eq operands joined within size (size ▸ operand)]
    exact (h.eq_assembleM within size (Nat.zero_le _) (Nat.sub_one_lt_of_lt operand)).symm
  · rw [associate_eq operands joined within size (size ▸ operand), fold_whole h within operand]
  · have hspans := bracketing_spans within (Nat.zero_le _) (Nat.sub_one_lt_of_lt operand)
    have hvalues : ∀ i ∈ (t.bracketing 0 (t.length - 1)).operands, ∃ x,
        (operandValue operands i : ExceptT ε (StateM σ) β) = pure x ∧
        (operandValue operands i : ExceptT ε (StateM (List (Call ε β) × σ)) β) = pure x := by
      intro i hi
      rw [hspans.operands_eq, List.mem_range'_1] at hi
      have hlt : i < operands.size := by omega
      exact ⟨operands[i], operandValue_of_lt hlt, operandValue_of_lt hlt⟩
    have hnoted := Bracketing.noted_assembleM joined hvalues [] state
    rw [hspans.joins_eq, Nat.sub_zero] at hnoted
    rw [associate_eq operands joined within size (size ▸ operand),
      associate_eq operands (Call.noted joined) within size (size ▸ operand)]
    exact hnoted

/-- Tables of three operands that were written down: no costs, a column too many, and entries that no span has. -/
def writtenDown : Tableau where
  dimensions := [1, 1, 1, 1]
  costs := #[]
  splits := #[#[9, 0, 0, 9], #[9, -9, 1]]

theorem splitsWithin_writtenDown : writtenDown.SplitsWithin := by
  intro first last h hlast
  have hplace : (first = 0 ∧ last = 1) ∨ (first = 0 ∧ last = 2) ∨ (first = 1 ∧ last = 2) := by
    have hlength : writtenDown.length = 3 := rfl
    omega
  rcases hplace with ⟨rfl, rfl⟩ | ⟨rfl, rfl⟩ | ⟨rfl, rfl⟩
  · exact ⟨0, by decide, by decide, by decide⟩
  · exact ⟨0, by decide, by decide, by decide⟩
  · exact ⟨1, by decide, by decide, by decide⟩

def failsAfterB (left right : String) : ExceptT Fault (StateM Nat) String := do
  modify (· + 1)
  if left = "b" then throw .unspecified
  pure (left ++ right)

theorem associate_reconstructs_of_writtenDown :
    0 < writtenDown.length ∧ writtenDown.SplitsWithin ∧ #["a", "b", "c"].size = writtenDown.length ∧
      ∃ calls, (writtenDown.associate #["a", "b", "c"] failsAfterB).run.run 0 = (.error .unspecified, 1) ∧
        (writtenDown.associate #["a", "b", "c"] (Call.noted failsAfterB)).run.run ([], 0) =
          (.error .unspecified, (calls, 1)) ∧
        Call.Accounts 2 calls (.error .unspecified : Except Fault String) := by
  obtain ⟨hsound, _⟩ := associate_reconstructs (β := String) (ε := Fault) (σ := Nat) writtenDown (by decide)
  obtain ⟨hrecursion, hcalls⟩ := hsound splitsWithin_writtenDown #["a", "b", "c"] rfl
  obtain ⟨⟨value, hvalue⟩, hsolution, _⟩ := hrecursion failsAfterB
  obtain ⟨outcome, state', calls, hrun, hnoted, haccounts⟩ := hcalls failsAfterB 0
  have hparts : value 0 2 = (do
      let left ← pure "a"
      let right ← (do
        let left ← pure "b"
        let right ← pure "c"
        failsAfterB left right)
      failsAfterB left right) := by
    rw [hvalue.join 0 0 2 (by decide) (by decide) (by decide) (by decide),
      hvalue.join 1 1 2 (by decide) (by decide) (by decide) (by decide), hvalue.operand 0 (by decide),
      hvalue.operand 1 (by decide), hvalue.operand 2 (by decide)]
    rfl
  have hfails : (writtenDown.associate #["a", "b", "c"] failsAfterB).run.run 0 = (.error .unspecified, 1) := by
    rw [hsolution value hvalue]
    change (value 0 2).run.run 0 = _
    rw [hparts]
    rfl
  obtain ⟨rfl, rfl⟩ := Prod.mk.inj (hrun.symm.trans hfails)
  exact ⟨by decide, splitsWithin_writtenDown, rfl, calls, hfails, hnoted, haccounts⟩

end Tableau
end MatrixChain
