import Mathlib

/-!
# Lib/Register — a field that is overwritten

A field of a replicated map is assigned as a whole.  Two replicas that start from one value and each
assign it keep the last value of one of them (`Register.merge`).
-/

/-- A value, and how often it was assigned. -/
structure Register (α : Type) where
  value : α
  writes : ℕ := 0
  deriving DecidableEq

namespace Register

variable {α β : Type}

def assign (r : Register α) (value : α) : Register α := ⟨value, r.writes + 1⟩

/-- The registers of two replicas that start from one; of two values that were assigned, one wins. -/
def merge (base left right : Register α) (leftWins : Bool) : Register α :=
  if left.writes = base.writes then right
  else if right.writes = base.writes then left
  else if leftWins then left else right

/-- An edit assigns the register, or leaves it as it is. -/
def Edits (r r' : Register α) : Prop := r' = r ∨ r.writes < r'.writes

theorem Edits.refl (r : Register α) : Edits r r := Or.inl rfl

theorem edits_assign (r : Register α) (value : α) : Edits r (r.assign value) :=
  .inr (Nat.lt_succ_self _)

variable {r r' : Register α}

theorem Edits.trans {r'' : Register α} (h : Edits r r') (h' : Edits r' r'') : Edits r r'' := by
  rcases h with rfl | h
  · exact h'
  · rcases h' with rfl | h'
    · exact .inr h
    · exact .inr (h.trans h')

/-- **What was not assigned is as it was.** -/
theorem Edits.eq_of_writes_eq (h : Edits r r') (hwrites : r'.writes = r.writes) :
    r' = r := by
  rcases h with h | h
  · exact h
  · exact absurd hwrites h.ne'

theorem Edits.writes_eq_iff (h : Edits r r') : r'.writes = r.writes ↔ r' = r :=
  ⟨h.eq_of_writes_eq, congrArg writes⟩

theorem Edits.le (h : Edits r r') : r.writes ≤ r'.writes := by
  rcases h with rfl | h
  · exact le_rfl
  · exact h.le

variable {edit : Register α → β → Register α}

theorem Edits.foldl (hedit : ∀ r b, Edits r (edit r b))
    (r : Register α) (l : List β) : Edits r (l.foldl edit r) := by
  induction l generalizing r with
  | nil => exact Edits.refl r
  | cons b l ih => exact (hedit r b).trans (ih (edit r b))

/-- **An edit that would change the value at the start is made sooner or later, or another one.** -/
theorem foldl_eq_iff (hedit : ∀ r b, Edits r (edit r b))
    (r : Register α) (l : List β) : l.foldl edit r = r ↔ ∀ b ∈ l, edit r b = r := by
  induction l with
  | nil => simp
  | cons b l ih =>
    rw [List.foldl_cons, List.forall_mem_cons]
    constructor
    · intro h
      have hfirst : edit r b = r := by
        refine (hedit r b).eq_of_writes_eq (le_antisymm ?_ (hedit r b).le)
        have hle := (Edits.foldl hedit (edit r b) l).le
        rwa [h] at hle
      rw [hfirst] at h
      exact ⟨hfirst, ih.mp h⟩
    · rintro ⟨hfirst, hrest⟩
      rw [hfirst]
      exact ih.mpr hrest

variable {base left right : Register α}

/-- What the winner assigned is kept, and else what the other did. -/
theorem merge_left (hleft : Edits base left) :
    (left = base → merge base left right true = right)
      ∧ (left ≠ base → merge base left right true = left) := by
  constructor
  · intro h
    rw [merge, if_pos (congrArg writes h)]
  · intro h
    rw [merge, if_neg (hleft.writes_eq_iff.not.mpr h), if_pos rfl, ite_self]

theorem merge_right (hleft : Edits base left) (hright : Edits base right) :
    (right = base → merge base left right false = left)
      ∧ (right ≠ base → merge base left right false = right) := by
  constructor
  · intro h
    by_cases hl : left.writes = base.writes
    · rw [merge, if_pos hl, h, hleft.eq_of_writes_eq hl]
    · rw [merge, if_neg hl, if_pos (congrArg writes h)]
  · intro h
    rw [merge, if_neg (hright.writes_eq_iff.not.mpr h), if_neg Bool.false_ne_true, ite_self]

end Register
