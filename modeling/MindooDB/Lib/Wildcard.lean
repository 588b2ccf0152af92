import Mathlib

/-!
# Lib/Wildcard — patterns in which a letter stands for any text

The language of a pattern, letter by letter (`Wildcard.Matches`).  Of a pattern with a star, a text
begins with what stands before the first one; if it also ends with what stands behind it, it is in the
language just when the two do not overlap in it (`Wildcard.matches_iff_length_le`).
-/

namespace Wildcard

open List

variable {α : Type*} (star : α)

/-- **The texts of a pattern.** -/
def Matches : List α → List α → Prop
  | [], s => s = []
  | c :: p, s => (c = star ∧ ∃ t u, s = t ++ u ∧ Matches p u)
      ∨ (c ≠ star ∧ ∃ u, s = c :: u ∧ Matches p u)

variable {star} {p q s t : List α}

theorem matches_star_cons : Matches star (star :: q) s ↔ ∃ t u, s = t ++ u ∧ Matches star q u := by
  rw [Matches]
  exact ⟨fun h => h.elim And.right fun h => absurd rfl h.1, fun h => .inl ⟨rfl, h⟩⟩

/-- Letters that stand for themselves. -/
theorem matches_append (h : star ∉ p) :
    Matches star (p ++ q) s ↔ ∃ u, s = p ++ u ∧ Matches star q u := by
  induction p generalizing s with
  | nil => exact ⟨fun hs => ⟨s, rfl, hs⟩, fun ⟨u, hs, hu⟩ => hs ▸ hu⟩
  | cons c p ih =>
    obtain ⟨hc, hp⟩ := not_or.mp (mt mem_cons.mpr h)
    rw [cons_append, Matches]
    constructor
    · rintro (⟨rfl, -⟩ | ⟨-, u, rfl, hu⟩)
      · exact absurd rfl hc
      · obtain ⟨v, rfl, hv⟩ := (ih hp).mp hu
        exact ⟨v, rfl, hv⟩
    · rintro ⟨u, rfl, hu⟩
      exact .inr ⟨Ne.symm hc, p ++ u, rfl, (ih hp).mpr ⟨u, rfl, hu⟩⟩

/-- **A pattern without a star** is its only text. -/
theorem matches_iff_eq (h : star ∉ p) : Matches star p s ↔ s = p := by
  have happend := matches_append (q := []) (s := s) h
  rw [append_nil] at happend
  rw [happend]
  constructor
  · rintro ⟨u, rfl, rfl⟩
    exact append_nil p
  · rintro rfl
    exact ⟨[], (append_nil s).symm, rfl⟩

/-- A pattern is one of its texts. -/
theorem matches_self (p : List α) : Matches star p p := by
  induction p with
  | nil => rfl
  | cons c p ih =>
    by_cases hc : c = star
    · exact .inl ⟨hc, [c], p, rfl, ih⟩
    · exact .inr ⟨hc, p, rfl, ih⟩

/-- The letters that stand for themselves are in the text. -/
theorem length_filter_le [DecidableEq α] (h : Matches star p s) :
    (p.filter (· ≠ star)).length ≤ (s.filter (· ≠ star)).length := by
  induction p generalizing s with
  | nil => exact Nat.zero_le _
  | cons c p ih =>
    rcases h with ⟨rfl, t, u, rfl, hu⟩ | ⟨hc, u, rfl, hu⟩
    · rw [filter_cons_of_neg (by simp), filter_append, length_append]
      exact (ih hu).trans (Nat.le_add_left _ _)
    · rw [filter_cons_of_pos (by simpa using hc), filter_cons_of_pos (by simpa using hc)]
      exact Nat.succ_le_succ (ih hu)

/-- **A text that begins with what is before the first star.** -/
theorem begins_of_matches (h : star ∉ p) (hs : Matches star (p ++ star :: q) s) : p <+: s := by
  obtain ⟨u, rfl, -⟩ := (matches_append h).mp hs
  exact prefix_append p u

theorem ends_of_matches (h : star ∉ p) (hq : star ∉ q) (hs : Matches star (p ++ star :: q) s) :
    q <:+ s := by
  obtain ⟨u, rfl, hu⟩ := (matches_append h).mp hs
  obtain ⟨t, v, rfl, hv⟩ := matches_star_cons.mp hu
  obtain rfl := (matches_iff_eq hq).mp hv
  rw [← append_assoc]
  exact suffix_append _ v

/-- **Both ends fit**: what decides is whether they overlap. -/
theorem matches_iff_length_le [DecidableEq α] (h : star ∉ p) (hp : p <+: s) (hq : q <:+ s) :
    Matches star (p ++ star :: q) s ↔ p.length + q.length ≤ s.length := by
  obtain ⟨u, rfl⟩ := hp
  rw [matches_append h, length_append, Nat.add_le_add_iff_left]
  constructor
  · rintro ⟨v, hv, hmatches⟩
    obtain rfl := append_cancel_left hv
    obtain ⟨t, w, rfl, hw⟩ := matches_star_cons.mp hmatches
    by_contra hlt
    rw [not_le] at hlt
    -- the overlap has letters, which are there once and are needed twice
    have hsub : t ++ w <:+ q := by
      refine (suffix_or_suffix_of_suffix hq (suffix_append p _)).resolve_left fun hle => ?_
      exact absurd hle.length_le (Nat.not_le.mpr hlt)
    obtain ⟨x, rfl⟩ := hsub
    have hx : x <:+ p := by
      obtain ⟨y, hy⟩ := hq
      rw [← append_assoc] at hy
      exact ⟨y, append_cancel_right hy⟩
    have hletters : x.filter (· ≠ star) = x := filter_eq_self.mpr fun c hc =>
      decide_eq_true fun heq => h (heq ▸ hx.subset hc)
    have hcount := length_filter_le hw
    rw [filter_append, filter_append, length_append, length_append, hletters] at hcount
    simp only [length_append] at hlt
    omega
  · intro hle
    obtain ⟨t, rfl⟩ := suffix_of_suffix_length_le hq (suffix_append p u) hle
    exact ⟨t ++ q, rfl, matches_star_cons.mpr ⟨t, q, rfl, matches_self q⟩⟩

end Wildcard
