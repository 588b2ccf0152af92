import Mathlib

/-!
# Lib/ScanFeed — paging through a sorted list by cursor

A feed is a list strictly sorted by a position.  A reader holds a cursor, asks for the elements
strictly after it a page at a time, and moves the cursor to the last element it was given.  Three
pieces, each over arbitrary elements and positions:

* `bisect` — the binary search for the first element after the cursor;
* `fillPage` — the single pass that fills a page and leaves the unread rest;
* `drain` — asking for pages until there are no more; `drain_eq` says that it returns the elements
  after the cursor, each once and in order, whatever the page limits are.
-/

namespace ScanFeed

open List

variable {α : Type*}

/-! ## The binary search -/

section Bisect

variable (p : α → Bool) (l : List α)

/-- The loop of the search: the indices below `lo` satisfy `p`, those from `hi` on do not. -/
def bisectLoop : ℕ → ℕ → ℕ → ℕ
  | 0, lo, _ => lo
  | fuel + 1, lo, hi =>
    if lo < hi then
      if (l[(lo + hi) / 2]?).any p then bisectLoop fuel ((lo + hi) / 2 + 1) hi
      else bisectLoop fuel lo ((lo + hi) / 2)
    else lo

/-- **The number of elements in front satisfying `p`**, found by halving. -/
def bisect : ℕ := bisectLoop p l l.length 0 l.length

variable {p l}

/-- On a list where `p` never comes back once lost, the index the loop returns splits it. -/
theorem bisectLoop_splits (hp : l.Pairwise fun a b => p b → p a) :
    ∀ fuel lo hi, hi - lo ≤ fuel → lo ≤ hi → hi ≤ l.length →
      (∀ x ∈ l.take lo, p x) → (∀ x ∈ l.drop hi, ¬ p x) →
      (∀ x ∈ l.take (bisectLoop p l fuel lo hi), p x) ∧
        (∀ x ∈ l.drop (bisectLoop p l fuel lo hi), ¬ p x) := by
  intro fuel
  induction fuel with
  | zero =>
    intro lo hi hf hlh _ hlo hhi
    obtain rfl : lo = hi := by omega
    exact ⟨hlo, hhi⟩
  | succ fuel ih =>
    intro lo hi hf hlh hlen hlo hhi
    rw [bisectLoop]
    split
    swap
    · obtain rfl : lo = hi := by omega
      exact ⟨hlo, hhi⟩
    rename_i hlt
    have hmid : (lo + hi) / 2 < l.length := by omega
    have hpair := pairwise_iff_getElem.mp hp
    rw [getElem?_eq_getElem hmid, Option.any_some]
    split
    · -- the middle satisfies `p`, hence so does everything before it
      rename_i hpm
      refine ih _ hi (by omega) (by omega) hlen (fun x hx => ?_) hhi
      obtain ⟨i, hi', rfl⟩ := getElem_of_mem hx
      rw [length_take] at hi'
      rw [getElem_take]
      rcases Nat.lt_or_ge i ((lo + hi) / 2) with h | h
      · exact hpair i _ (by omega) hmid h hpm
      · obtain rfl : i = (lo + hi) / 2 := by omega
        exact hpm
    · rename_i hpm
      refine ih lo _ (by omega) (by omega) (by omega) hlo fun x hx hpx => ?_
      obtain ⟨i, hi', rfl⟩ := getElem_of_mem hx
      rw [length_drop] at hi'
      rw [getElem_drop] at hpx
      rcases Nat.eq_zero_or_pos i with h | h
      · subst h
        exact hpm hpx
      · exact hpm (hpair _ _ hmid (by omega) (by omega) hpx)

theorem bisect_splits (hp : l.Pairwise fun a b => p b → p a) :
    (∀ x ∈ l.take (bisect p l), p x) ∧ ∀ x ∈ l.drop (bisect p l), ¬ p x :=
  bisectLoop_splits hp l.length 0 l.length (by omega) (by omega) (Nat.le_refl _)
    (by simp) (by simp)

theorem bisectLoop_le (fuel : ℕ) : ∀ lo hi, lo ≤ hi → bisectLoop p l fuel lo hi ≤ hi := by
  induction fuel with
  | zero => exact fun lo hi h => h
  | succ fuel ih =>
    intro lo hi h
    rw [bisectLoop]
    by_cases hlt : lo < hi
    · rw [if_pos hlt]
      split
      · exact ih _ _ (by omega)
      · exact Nat.le_trans (ih _ _ (by omega)) (by omega)
    · rw [if_neg hlt]
      exact h

theorem bisect_le_length : bisect p l ≤ l.length := bisectLoop_le l.length 0 l.length (Nat.zero_le _)

/-- **The search drops exactly the elements satisfying `p`.** -/
theorem drop_bisect (hp : l.Pairwise fun a b => p b → p a) :
    l.drop (bisect p l) = l.filter fun x => !p x := by
  obtain ⟨h₁, h₂⟩ := bisect_splits hp
  have hl : l.filter (fun x => !p x)
      = (l.take (bisect p l)).filter (fun x => !p x) ++ (l.drop (bisect p l)).filter fun x => !p x := by
    rw [← filter_append, take_append_drop]
  rw [hl, filter_eq_nil_iff.mpr fun x hx => by simp [h₁ x hx], nil_append,
    filter_eq_self.mpr fun x hx => by simp [h₂ x hx]]

/-- …and keeps them in front. -/
theorem take_bisect (hp : l.Pairwise fun a b => p b → p a) :
    l.take (bisect p l) = l.filter p := by
  obtain ⟨h₁, h₂⟩ := bisect_splits hp
  have hl : l.filter p = (l.take (bisect p l)).filter p ++ (l.drop (bisect p l)).filter p := by
    rw [← filter_append, take_append_drop]
  rw [hl, filter_eq_self.mpr h₁, filter_eq_nil_iff.mpr h₂, append_nil]

/-- A search that nothing ends goes to the end. -/
theorem bisect_eq_length (h : ∀ x ∈ l, p x) : bisect p l = l.length := by
  refine Nat.le_antisymm bisect_le_length ?_
  have htake := congrArg List.length
    (take_bisect (pairwise_of_forall_mem_list fun x hx _ _ _ => h x hx))
  rw [filter_eq_self.mpr h, length_take] at htake
  omega

end Bisect

/-! ## Filling a page -/

/-- Collect up to `n` elements satisfying `p`; the second component is what was not looked at. -/
def fillPage (p : α → Bool) : ℕ → List α → List α × List α
  | _, [] => ([], [])
  | 0, a :: l => ([], a :: l)
  | n + 1, a :: l =>
    if p a then (a :: (fillPage p n l).1, (fillPage p n l).2) else fillPage p (n + 1) l

theorem fillPage_fst (p : α → Bool) (n : ℕ) (l : List α) :
    (fillPage p n l).1 = (l.filter p).take n := by
  induction l generalizing n with
  | nil => simp [fillPage]
  | cons a l ih =>
    cases n with
    | zero => simp [fillPage]
    | succ n => by_cases h : p a = true <;> simp [fillPage, h, ih]

/-- **The unread rest holds another match exactly when the page could not take them all.** -/
theorem fillPage_snd_any (p : α → Bool) (n : ℕ) (l : List α) :
    (fillPage p n l).2.any p = decide (n < (l.filter p).length) := by
  induction l generalizing n with
  | nil => simp [fillPage]
  | cons a l ih =>
    cases n with
    | zero =>
      rw [Bool.eq_iff_iff]
      simp [fillPage, length_pos_iff, filter_eq_nil_iff]
    | succ n => by_cases h : p a = true <;> simp [fillPage, h, ih]

/-! ## Cursors -/

variable {P : Type*} [LinearOrder P]

/-- Whether a position lies strictly after a cursor; no cursor is before everything. -/
def after (c : Option P) (q : P) : Bool := c.all (· < q)

@[simp] theorem after_none (q : P) : after none q = true := rfl

@[simp] theorem after_some (c q : P) : after (some c) q = decide (c < q) := rfl

theorem after_mono {c : Option P} {q q' : P} (h : after c q) (hq : q ≤ q') : after c q' := by
  cases c with
  | none => rfl
  | some c => simpa using (by simpa using h : c < q).trans_le hq

/-- A page of a scan: the elements, the cursor to continue from, whether more are waiting. -/
structure Page (α P : Type*) where
  entries : List α
  next : Option P
  hasMore : Bool

/-- The page of length `n` in front of a list of pending elements. -/
def pageOf (pos : α → P) (pending : List α) (c : Option P) (n : ℕ) : Page α P where
  entries := pending.take n
  next := ((pending.take n).getLast?.map pos).or c
  hasMore := decide (n < pending.length)

/-- **Moving the cursor past a page leaves the elements behind the page.** -/
theorem filter_after_next {pos : α → P} {feed : List α}
    (hf : feed.Pairwise fun a b => pos a < pos b) (c : Option P) (n : ℕ) :
    feed.filter (fun a => after (pageOf pos (feed.filter fun a => after c (pos a)) c n).next (pos a))
      = (feed.filter fun a => after c (pos a)).drop n := by
  obtain ⟨pending, hpending⟩ : ∃ pending, pending = feed.filter fun a => after c (pos a) := ⟨_, rfl⟩
  rw [← hpending]
  rcases eq_nil_or_concat (pending.take n) with hnil | ⟨front, x, hx⟩
  · -- an empty page leaves the cursor where it is
    have hd : pending.drop n = pending := by
      rcases take_eq_nil_iff.mp hnil with rfl | rfl <;> simp
    simp only [pageOf, hnil, getLast?_nil, Option.map_none, Option.none_or, hd]
    exact hpending.symm
  rw [concat_eq_append] at hx
  have hnext : (pageOf pos pending c n).next = some (pos x) := by simp [pageOf, hx]
  have hp : pending.Pairwise fun a b => pos a < pos b := hpending ▸ hf.filter _
  rw [← take_append_drop n pending, hx] at hp
  obtain ⟨hfront, hrest, hcross⟩ := pairwise_append.mp hp
  have hxmem : x ∈ pending := by
    have h : x ∈ pending.take n := by simp [hx]
    exact mem_of_mem_take h
  have hcx : after c (pos x) := by
    rw [hpending] at hxmem
    exact (mem_filter.mp hxmem).2
  have hstep : feed.filter (fun a => after (some (pos x)) (pos a))
      = pending.filter fun a => after (some (pos x)) (pos a) := by
    rw [hpending, filter_filter]
    refine filter_congr fun a _ => ?_
    by_cases h : pos x < pos a
    · simp [h, after_mono hcx h.le]
    · simp [h]
  have hsplit : pending.filter (fun a => after (some (pos x)) (pos a))
      = (front ++ [x]).filter (fun a => after (some (pos x)) (pos a))
        ++ (pending.drop n).filter fun a => after (some (pos x)) (pos a) := by
    rw [← hx, ← filter_append, take_append_drop]
  have hgone : (front ++ [x]).filter (fun a => after (some (pos x)) (pos a)) = [] := by
    refine filter_eq_nil_iff.mpr fun a ha => ?_
    rcases mem_append.mp ha with ha | ha
    · have := (pairwise_append.mp hfront).2.2 a ha x (by simp)
      simpa using this.le
    · obtain rfl := mem_singleton.mp ha
      simp
  have hkept : (pending.drop n).filter (fun a => after (some (pos x)) (pos a)) = pending.drop n :=
    filter_eq_self.mpr fun a ha => by simpa using hcross x (by simp) a ha
  rw [hnext, hstep, hsplit, hgone, hkept, nil_append]

/-- Ask for page after page, the `i`-th of length `limits i`, until no more are waiting; `none` when
`fuel` pages were not enough. -/
def drain (scan : Option P → ℕ → Page α P) : ℕ → (ℕ → ℕ) → Option P → Option (List α)
  | 0, _, _ => none
  | fuel + 1, limits, c =>
    if (scan c (limits 0)).hasMore then
      (drain scan fuel (fun i => limits (i + 1)) (scan c (limits 0)).next).map
        ((scan c (limits 0)).entries ++ ·)
    else some (scan c (limits 0)).entries

/-- **Draining loses nothing and repeats nothing.**  With every limit at least one, as many pages as
there are elements after the cursor (plus one) return exactly those elements, in order. -/
theorem drain_eq {pos : α → P} {feed : List α} (hf : feed.Pairwise fun a b => pos a < pos b)
    {scan : Option P → ℕ → Page α P}
    (hscan : ∀ c n, scan c n = pageOf pos (feed.filter fun a => after c (pos a)) c n) :
    ∀ (fuel : ℕ) (limits : ℕ → ℕ) (c : Option P), (∀ i, 1 ≤ limits i) →
      (feed.filter fun a => after c (pos a)).length < fuel →
      drain scan fuel limits c = some (feed.filter fun a => after c (pos a)) := by
  intro fuel
  induction fuel with
  | zero => intro _ _ _ h; omega
  | succ fuel ih =>
    intro limits c hl hlen
    rw [drain, hscan]
    split
    · rename_i hmore
      have hlt : limits 0 < (feed.filter fun a => after c (pos a)).length := by
        simpa [pageOf] using hmore
      have hone := hl 0
      have hrest := filter_after_next hf c (limits 0)
      rw [ih _ _ (fun i => hl (i + 1)) (by rw [hrest, length_drop]; omega), hrest]
      simp [pageOf]
    · rename_i hmore
      have hle : (feed.filter fun a => after c (pos a)).length ≤ limits 0 := by
        simpa [pageOf] using hmore
      simp [pageOf, take_of_length_le hle]

end ScanFeed
