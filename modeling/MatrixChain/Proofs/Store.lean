import MatrixChain.Evaluation.Pool

/-!
# Stored values

What counting, keeping and dropping values does to a store, lookup by lookup. A value goes with the last use that was
counted, and no other way.
-/

namespace MatrixChain
namespace Pool

variable {α β : Type}

theorem mem_uses {level : Array (Expr α)} {id : NodeId} :
    id ∈ uses level ↔ ∃ n ∈ level, ∃ c ∈ n.children, c.id = id := by
  simp [uses]

namespace Store

theorem pending_expect (store : Store β) (id id' : NodeId) :
    (store.expect id).pending.getD id' 0 = store.pending.getD id' 0 + if id = id' then 1 else 0 := by
  rw [expect, Std.HashMap.getD_insert]
  by_cases h : id = id' <;> simp [h]

theorem foldl_expect (ids : List NodeId) (store : Store β) :
    (ids.foldl expect store).values = store.values ∧
      ∀ id, (ids.foldl expect store).pending.getD id 0 = store.pending.getD id 0 + ids.count id := by
  induction ids generalizing store with
  | nil => exact ⟨rfl, fun _ => (Int.add_zero _).symm⟩
  | cons id' ids ih =>
    obtain ⟨hvalues, hpending⟩ := ih (store.expect id')
    refine ⟨hvalues, fun id => ?_⟩
    rw [List.foldl_cons, hpending, pending_expect, List.count_cons]
    by_cases h : id' = id <;> simp [h]
    omega

theorem values_start (levels : Expr.Levels α) (id : NodeId) : (start levels : Store β).values[id]? = none := by
  rw [start, (foldl_expect _ _).1]
  exact Std.HashMap.getElem?_empty

theorem pending_start (levels : Expr.Levels α) (id : NodeId) :
    (start levels : Store β).pending.getD id 0 = (levels.toList.flatMap uses).count id := by
  rw [start, (foldl_expect _ _).2, Std.HashMap.getD_empty, Int.zero_add]

theorem values_put (store : Store β) (id id' : NodeId) (value : β) :
    (store.put id value).values[id']? = if id = id' then some value else store.values[id']? := by
  rw [put, Std.HashMap.getElem?_insert]
  simp only [beq_iff_eq]

/-- A use is spent of a value that is there. -/
def spent (store : Store β) (id : NodeId) : Store β :=
  let left := store.pending.getD id 0 - 1
  ⟨if left = 0 then store.values.erase id else store.values, store.pending.insert id left⟩

theorem pending_spent (store : Store β) (id id' : NodeId) :
    (store.spent id).pending.getD id' 0 = store.pending.getD id' 0 - if id = id' then 1 else 0 := by
  rw [spent, Std.HashMap.getD_insert]
  by_cases h : id = id' <;> simp [h]

theorem values_spent (store : Store β) (id id' : NodeId) :
    (store.spent id).values[id']? =
      if id = id' ∧ store.pending.getD id 0 = 1 then none else store.values[id']? := by
  unfold spent
  by_cases hlast : store.pending.getD id 0 = 1
  · simp [hlast, Std.HashMap.getElem?_erase]
  · have hleft : store.pending.getD id 0 - 1 ≠ 0 := by omega
    simp [hleft, hlast]

theorem pending_foldl_spent (ids : List NodeId) (store : Store β) (id : NodeId) :
    (ids.foldl spent store).pending.getD id 0 = store.pending.getD id 0 - ids.count id := by
  induction ids generalizing store with
  | nil => simp
  | cons id' ids ih =>
    rw [List.foldl_cons, ih, pending_spent, List.count_cons]
    by_cases h : id' = id
    · simp [h]
      omega
    · simp [h]

/-- A value goes when its count comes down to zero. -/
theorem values_foldl_spent (ids : List NodeId) (store : Store β) (id : NodeId) :
    (ids.foldl spent store).values[id]? =
      if 0 < store.pending.getD id 0 ∧ store.pending.getD id 0 ≤ ids.count id then none else store.values[id]? := by
  induction ids generalizing store with
  | nil =>
    have hnone : ¬(0 < store.pending.getD id 0 ∧ store.pending.getD id 0 ≤ ([] : List NodeId).count id) := by simp
    rw [if_neg hnone, List.foldl_nil]
  | cons id' ids ih =>
    rw [List.foldl_cons, ih, pending_spent, values_spent, List.count_cons]
    by_cases h : id' = id
    · subst h
      simp only [true_and, if_true, beq_self_eq_true]
      by_cases hlast : store.pending.getD id' 0 = 1
      · have hspent : 0 < store.pending.getD id' 0 ∧ store.pending.getD id' 0 ≤ ↑(ids.count id' + 1) := by omega
        rw [if_pos hlast, ite_self, if_pos hspent]
      · have hspent : (0 < store.pending.getD id' 0 - 1 ∧ store.pending.getD id' 0 - 1 ≤ ids.count id') ↔
            0 < store.pending.getD id' 0 ∧ store.pending.getD id' 0 ≤ ↑(ids.count id' + 1) := by omega
        rw [if_neg hlast]
        simp only [hspent]
    · simp [h]

variable {m : Type → Type} [Monad m] [MonadExcept Fault m]

theorem spend_eq {store : Store β} {id : NodeId} (stored : id ∈ store.values) :
    (store.spend id : m (Store β)) = pure (store.spent id) := by
  simp only [spend, spent, if_pos stored]
  split <;> rfl

/-- No value is missed where there is one for every use, and not more uses than were counted. -/
theorem foldlM_spend_eq [LawfulMonad m] {ids : List NodeId} {store : Store β}
    (stored : ∀ id ∈ ids, id ∈ store.values) (counted : ∀ id, ids.count id ≤ store.pending.getD id 0) :
    (ids.foldlM spend store : m (Store β)) = pure (ids.foldl spent store) := by
  induction ids generalizing store with
  | nil => rfl
  | cons id' ids ih =>
    have hstored : ∀ id ∈ ids, id ∈ (store.spent id').values := by
      intro id hid
      have hcount := counted id
      have hmore := List.count_pos_iff.2 hid
      have hkept : ¬(id' = id ∧ store.pending.getD id' 0 = 1) := by
        rintro ⟨rfl, hlast⟩
        rw [hlast, List.count_cons_self] at hcount
        omega
      rw [Std.HashMap.mem_iff_isSome_getElem?, values_spent, if_neg hkept, ← Std.HashMap.mem_iff_isSome_getElem?]
      exact stored id (List.mem_cons_of_mem id' hid)
    have hcounted : ∀ id, ids.count id ≤ (store.spent id').pending.getD id 0 := by
      intro id
      have hcount := counted id
      rw [List.count_cons] at hcount
      rw [pending_spent]
      by_cases h : id' = id
      · simp [h] at hcount ⊢
        omega
      · simpa [h] using hcount
    rw [List.foldlM_cons, spend_eq (stored id' List.mem_cons_self), pure_bind, ih hstored hcounted, List.foldl_cons]

def released (store : Store β) (level : Array (Expr α)) : Store β :=
  (uses level).foldl spent store

theorem pending_released (store : Store β) (level : Array (Expr α)) (id : NodeId) :
    (store.released level).pending.getD id 0 = store.pending.getD id 0 - (uses level).count id :=
  pending_foldl_spent _ store id

theorem values_released (store : Store β) (level : Array (Expr α)) (id : NodeId) :
    (store.released level).values[id]? =
      if 0 < store.pending.getD id 0 ∧ store.pending.getD id 0 ≤ (uses level).count id then none
      else store.values[id]? :=
  values_foldl_spent _ store id

theorem release_eq [LawfulMonad m] {store : Store β} {level : Array (Expr α)}
    (stored : ∀ id ∈ uses level, id ∈ store.values)
    (counted : ∀ id, (uses level).count id ≤ store.pending.getD id 0) :
    (store.release level : m (Store β)) = pure (store.released level) :=
  foldlM_spend_eq stored counted

end Store
end Pool
end MatrixChain
