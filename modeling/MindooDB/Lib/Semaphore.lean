import Mathlib

/-!
# Lib/Semaphore — slots handed out first come, first served

A semaphore with a number of slots: who asks gets a slot if one is free and nobody waits, and waits
else; who releases a slot hands it over to the first that waits.  `Semaphore` carries what these
keep: no more holders than slots, none that waits while a slot is free, slots given in the order of
asking, and each given slot held or released, once.
-/

/-- **A semaphore**, and who has asked for a slot, been given one and released it, in this order. -/
structure Semaphore (ι : Type) (capacity : ℕ) where
  asked : List ι
  granted : List ι
  released : List ι
  holders : List ι
  waiters : List ι
  asked_eq : asked = granted ++ waiters
  nodup : asked.Nodup
  perm : granted.Perm (released ++ holders)
  length_le : holders.length ≤ capacity
  full : waiters ≠ [] → holders.length = capacity

/-- Where somebody is: outside, in the queue, holding a slot, or done with it. -/
inductive SlotPlace
  | outside
  | queue
  | slot
  | gone
  deriving DecidableEq

namespace Semaphore

open List

variable {ι : Type} {capacity : ℕ}

/-- Nobody has asked yet. -/
def empty (ι : Type) (capacity : ℕ) : Semaphore ι capacity where
  asked := []
  granted := []
  released := []
  holders := []
  waiters := []
  asked_eq := rfl
  nodup := nodup_nil
  perm := .refl _
  length_le := Nat.zero_le _
  full := fun h => absurd rfl h

variable (s : Semaphore ι capacity) {i : ι}

theorem mem_asked : i ∈ s.asked ↔ i ∈ s.released ∨ i ∈ s.holders ∨ i ∈ s.waiters := by
  rw [s.asked_eq, mem_append, s.perm.mem_iff, mem_append, or_assoc]

/-- Nobody is in two places. -/
theorem disjoint : (i ∈ s.waiters → i ∉ s.holders ∧ i ∉ s.released)
    ∧ (i ∈ s.holders → i ∉ s.released) := by
  have hnodup : (s.granted ++ s.waiters).Nodup := s.asked_eq ▸ s.nodup
  obtain ⟨hgranted, -, hdisjoint⟩ := nodup_append.mp hnodup
  obtain ⟨-, -, hslots⟩ := nodup_append.mp (s.perm.nodup_iff.mp hgranted)
  refine ⟨fun hwaiter => ⟨fun hholder => ?_, fun hreleased => ?_⟩, fun hholder hreleased => ?_⟩
  · exact hdisjoint i (s.perm.mem_iff.mpr (mem_append_right _ hholder)) i hwaiter rfl
  · exact hdisjoint i (s.perm.mem_iff.mpr (mem_append_left _ hreleased)) i hwaiter rfl
  · exact hslots i hreleased i hholder rfl

/-- A slot that is free is given to who asks. -/
def grant (hnew : i ∉ s.asked) (hnone : s.waiters = []) (hfree : s.holders.length < capacity) :
    Semaphore ι capacity := { s with
  asked := s.asked ++ [i]
  granted := s.granted ++ [i]
  holders := s.holders ++ [i]
  asked_eq := by rw [s.asked_eq, hnone, append_nil, append_nil]
  nodup := nodup_append.mpr ⟨s.nodup, nodup_singleton i, fun _ ha _ hb heq =>
    hnew (mem_singleton.mp hb ▸ heq ▸ ha)⟩
  perm := by
    rw [← append_assoc]
    exact s.perm.append_right [i]
  length_le := by
    rw [length_append]
    exact hfree
  full := fun h => absurd hnone h }

/-- Where none is free, who asks waits. -/
def enqueue (hnew : i ∉ s.asked) (hfull : s.holders.length = capacity) : Semaphore ι capacity :=
  { s with
    asked := s.asked ++ [i]
    waiters := s.waiters ++ [i]
    asked_eq := by rw [s.asked_eq, append_assoc]
    nodup := nodup_append.mpr ⟨s.nodup, nodup_singleton i, fun _ ha _ hb heq =>
      hnew (mem_singleton.mp hb ▸ heq ▸ ha)⟩
    full := fun _ => hfull }

variable [DecidableEq ι]

/-- A slot is released, and nobody waits for it. -/
def vacate (hi : i ∈ s.holders) (hnone : s.waiters = []) : Semaphore ι capacity := { s with
  released := s.released ++ [i]
  holders := s.holders.erase i
  perm := by
    rw [append_assoc]
    exact s.perm.trans ((perm_cons_erase hi).append_left s.released)
  length_le := Nat.le_trans erase_sublist.length_le s.length_le
  full := fun h => absurd hnone h }

/-- A slot is released to the first that waits for it. -/
def handOver (hi : i ∈ s.holders) {next : ι} {waiters : List ι}
    (hnext : s.waiters = next :: waiters) : Semaphore ι capacity :=
  have hlength : (s.holders.erase i ++ [next]).length = s.holders.length := by
    rw [length_append, length_erase_of_mem hi, length_singleton]
    exact Nat.sub_add_cancel (length_pos_of_mem hi)
  { s with
    granted := s.granted ++ [next]
    released := s.released ++ [i]
    holders := s.holders.erase i ++ [next]
    waiters
    asked_eq := by rw [s.asked_eq, hnext, append_assoc, singleton_append]
    perm := by
      rw [← append_assoc, append_assoc s.released]
      exact (s.perm.trans ((perm_cons_erase hi).append_left s.released)).append_right [next]
    length_le := Nat.le_trans (Nat.le_of_eq hlength) s.length_le
    full := fun _ => hlength.trans (s.full (hnext ▸ cons_ne_nil _ _)) }

/-! ## Places -/

def place (i : ι) : SlotPlace :=
  if i ∈ s.waiters then .queue
  else if i ∈ s.holders then .slot
  else if i ∈ s.released then .gone
  else .outside

theorem place_eq_queue_iff : s.place i = .queue ↔ i ∈ s.waiters := by
  rw [place]
  split_ifs with hwaiter
  all_goals simp [hwaiter]

theorem place_eq_slot_iff : s.place i = .slot ↔ i ∈ s.holders := by
  rw [place]
  split_ifs with hwaiter hholder
  · simp [(s.disjoint.1 hwaiter).1]
  · simp [hholder]
  all_goals simp [hholder]

theorem place_eq_gone_iff : s.place i = .gone ↔ i ∈ s.released := by
  rw [place]
  split_ifs with hwaiter hholder hreleased
  · simp [(s.disjoint.1 hwaiter).2]
  · simp [s.disjoint.2 hholder]
  · simp [hreleased]
  · simp [hreleased]

theorem place_eq_outside_iff : s.place i = .outside ↔ i ∉ s.asked := by
  rw [mem_asked, place]
  split_ifs with hwaiter hholder hreleased
  all_goals simp [*]

theorem place_congr {s s' : Semaphore ι capacity} {i : ι}
    (hwaiters : i ∈ s'.waiters ↔ i ∈ s.waiters) (hholders : i ∈ s'.holders ↔ i ∈ s.holders)
    (hreleased : i ∈ s'.released ↔ i ∈ s.released) : s'.place i = s.place i := by
  rw [place, place]
  simp only [hwaiters, hholders, hreleased]

variable {s} {j : ι}

theorem place_grant {hnew : i ∉ s.asked} {hnone : s.waiters = []}
    {hfree : s.holders.length < capacity} :
    (s.grant hnew hnone hfree).place j = if j = i then .slot else s.place j := by
  split_ifs with h
  · rw [h, place_eq_slot_iff]
    exact mem_concat_self
  · refine place_congr Iff.rfl ?_ Iff.rfl
    exact mem_append.trans (or_iff_left (by rwa [mem_singleton]))

theorem place_enqueue {hnew : i ∉ s.asked} {hfull : s.holders.length = capacity} :
    (s.enqueue hnew hfull).place j = if j = i then .queue else s.place j := by
  split_ifs with h
  · rw [h, place_eq_queue_iff]
    exact mem_concat_self
  · refine place_congr ?_ Iff.rfl Iff.rfl
    exact mem_append.trans (or_iff_left (by rwa [mem_singleton]))

theorem place_vacate {hi : i ∈ s.holders} {hnone : s.waiters = []} :
    (s.vacate hi hnone).place j = if j = i then .gone else s.place j := by
  split_ifs with h
  · rw [h, place_eq_gone_iff]
    exact mem_concat_self
  · refine place_congr Iff.rfl (mem_erase_of_ne h) ?_
    exact mem_append.trans (or_iff_left (by rwa [mem_singleton]))

theorem place_handOver {hi : i ∈ s.holders} {next : ι} {waiters : List ι}
    {hnext : s.waiters = next :: waiters} : (s.handOver hi hnext).place j
      = if j = next then .slot else if j = i then .gone else s.place j := by
  split_ifs with h h'
  · rw [h, place_eq_slot_iff]
    exact mem_concat_self
  · rw [h', place_eq_gone_iff]
    exact mem_concat_self
  · refine place_congr ?_ ?_ ?_
    · rw [hnext, mem_cons, or_iff_right h]
      rfl
    · exact mem_append.trans ((or_iff_left (by rwa [mem_singleton])).trans
        (mem_erase_of_ne h'))
    · exact mem_append.trans (or_iff_left (by rwa [mem_singleton]))

end Semaphore
