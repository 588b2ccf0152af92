import MindooDB.Lib.CompareSort

/-!
# Lib/Comparator — comparators that order

A comparator returns a number of which only the sign is read.  `Orders cmp` says that the signs are
those of a total preorder.  Comparators are built from others by looking at a part of what they
compare (`Orders.comap`), by a second one for ties (`Orders.lex`), the other way round
(`Orders.reverse`), and one for each class of things, the classes being ranked (`Orders.of_rank`).

A binary search for where a new element goes keeps a list sorted (`pairwise_insertIdx`), and puts it
where a stable sort would (`Orders.sortBy_concat`, `Orders.insertIdx_partitionPoint`); a stable sort
of fewer elements leaves out the others (`Orders.filter_sortBy`).
-/

variable {α β : Type*} {cmp cmp' : α → α → ℤ}

/-- **A comparator that orders**: exchanging the two exchanges the sign, and coming not after is
transitive. -/
structure Orders (cmp : α → α → ℤ) : Prop where
  swap : ∀ a b, cmp b a < 0 ↔ 0 < cmp a b
  trans : ∀ a b c, cmp a b ≤ 0 → cmp b c ≤ 0 → cmp a c ≤ 0

/-- The comparator of a linear order. -/
def compareByOrder [LinearOrder α] (a b : α) : ℤ := if a < b then -1 else if b < a then 1 else 0

variable {a : α}

theorem compareByOrder_le_zero [LinearOrder α] {b : α} : compareByOrder a b ≤ 0 ↔ a ≤ b := by
  rw [compareByOrder]
  split_ifs with hlt hgt
  · exact iff_of_true (by decide) hlt.le
  · exact iff_of_false (by decide) (not_le.mpr hgt)
  · exact iff_of_true le_rfl (not_lt.mp hgt)

theorem separates_compareByOrder [LinearOrder α] (l : List α) : Separates compareByOrder l :=
  fun _ _ _ _ hab hba => le_antisymm (compareByOrder_le_zero.mp hab) (compareByOrder_le_zero.mp hba)

namespace Orders

section

variable (h : Orders cmp)

include h

theorem swap_le (a b : α) : cmp b a ≤ 0 ↔ 0 ≤ cmp a b := by
  have hswap := h.swap b a
  omega

theorem self (a : α) : cmp a a = 0 := by
  have hswap := h.swap a a
  omega

theorem total (a b : α) : cmp a b ≤ 0 ∨ cmp b a ≤ 0 := by
  have hswap := h.swap_le a b
  omega

/-- Two that come before each other are tied. -/
theorem eq_zero {b : α} (hab : cmp a b ≤ 0) (hba : cmp b a ≤ 0) :
    cmp a b = 0 := by
  have hswap := h.swap_le a b
  omega

theorem trans_lt {b c : α} (hab : cmp a b ≤ 0) (hbc : cmp b c < 0) :
    cmp a c < 0 := by
  by_contra hac
  have hca : cmp c a ≤ 0 := (h.swap_le a c).mpr (not_lt.mp hac)
  have hcb := h.trans c a b hca hab
  have hswap := h.swap_le b c
  omega

theorem lt_trans {b c : α} (hab : cmp a b < 0) (hbc : cmp b c ≤ 0) :
    cmp a c < 0 := by
  by_contra hac
  have hca : cmp c a ≤ 0 := (h.swap_le a c).mpr (not_lt.mp hac)
  have hba := h.trans b c a hbc hca
  have hswap := h.swap_le a b
  omega

/-- Such a comparator sorts every list. -/
theorem consistent (l : List α) : Consistent cmp l :=
  ⟨fun a _ b _ => h.total a b, fun a _ b _ c _ => h.trans a b c⟩

end

/-! ## Building comparators -/

theorem const : Orders fun _ _ : α => (0 : ℤ) :=
  ⟨fun _ _ => by simp, fun _ _ _ _ _ => le_refl _⟩

theorem ofLinearOrder [LinearOrder α] : Orders (compareByOrder : α → α → ℤ) := by
  refine ⟨fun a b => ?_, fun a b c hab hbc => ?_⟩
  · rw [compareByOrder, compareByOrder]
    split_ifs with hba hab
    · exact absurd hab hba.not_gt
    all_goals simp
  · rw [compareByOrder_le_zero] at hab hbc ⊢
    exact hab.trans hbc

/-- Comparing a part. -/
theorem comap (h : Orders cmp) (f : β → α) : Orders fun a b => cmp (f a) (f b) :=
  ⟨fun a b => h.swap (f a) (f b), fun a b c => h.trans (f a) (f b) (f c)⟩

/-- The other way round. -/
theorem reverse (h : Orders cmp) : Orders fun a b => -cmp a b := by
  refine ⟨fun a b => ?_, fun a b c hab hbc => ?_⟩
  · have hswap := h.swap b a
    omega
  · have hba := (h.swap_le a b).mpr (by omega)
    have hcb := (h.swap_le b c).mpr (by omega)
    have hca := (h.swap_le a c).mp (h.trans c b a hcb hba)
    omega

/-- A second comparator for what the first one ties. -/
theorem lex (h : Orders cmp) (h' : Orders cmp') :
    Orders fun a b => if cmp a b ≠ 0 then cmp a b else cmp' a b := by
  have hzero : ∀ a b, cmp a b = 0 ↔ cmp b a = 0 := fun a b => by
    have hab := h.swap a b
    have hba := h.swap b a
    omega
  refine ⟨fun a b => ?_, fun a b c hab hbc => ?_⟩
  · by_cases hab : cmp a b = 0
    · simp only [hab, (hzero a b).mp hab, ne_eq, not_true_eq_false, if_false]
      exact h'.swap a b
    · have hba : cmp b a ≠ 0 := fun hba => hab ((hzero a b).mpr hba)
      simp only [ne_eq, hab, hba, not_false_eq_true, if_true]
      exact h.swap a b
  · have hle : ∀ {a b}, (if cmp a b ≠ 0 then cmp a b else cmp' a b) ≤ 0 → cmp a b ≤ 0 := by
      intro a b hab
      split at hab
      · exact hab
      · omega
    have hac := h.trans a b c (hle hab) (hle hbc)
    split
    · exact hac
    · rename_i hzac
      rw [not_not] at hzac
      -- a tie of the ends is a tie in between
      have hab₀ : cmp a b = 0 := by
        by_contra hne
        have hlt := h.lt_trans (lt_of_le_of_ne (hle hab) hne) (hle hbc)
        omega
      have hbc₀ : cmp b c = 0 := by
        by_contra hne
        have hlt := h.trans_lt (hle hab) (lt_of_le_of_ne (hle hbc) hne)
        omega
      simp only [hab₀, hbc₀, ne_eq, not_true_eq_false, if_false] at hab hbc
      exact h'.trans a b c hab hbc

/-- **Ranked classes**, each with a comparator of its own. -/
theorem of_rank (rank : α → ℤ) {inner : ℤ → α → α → ℤ} (hinner : ∀ r, Orders (inner r))
    (hlt : ∀ a b, rank a < rank b → cmp a b < 0) (hgt : ∀ a b, rank b < rank a → 0 < cmp a b)
    (heq : ∀ a b, rank a = rank b → cmp a b = inner (rank a) a b) : Orders cmp := by
  have hrank : ∀ {a b}, cmp a b ≤ 0 → rank a ≤ rank b := fun {a b} hab => by
    by_contra hlt
    have hpos := hgt a b (not_le.mp hlt)
    omega
  refine ⟨fun a b => ?_, fun a b c hab hbc => ?_⟩
  · rcases lt_trichotomy (rank a) (rank b) with h | h | h
    · have h₁ := hlt a b h
      have h₂ := hgt b a h
      omega
    · rw [heq a b h, heq b a h.symm, h]
      exact (hinner _).swap a b
    · have h₁ := hlt b a h
      have h₂ := hgt a b h
      omega
  · have hle := (hrank hab).trans (hrank hbc)
    rcases hle.lt_or_eq with hac | hac
    · exact (hlt a c hac).le
    · have hab₀ : rank a = rank b := le_antisymm (hrank hab) (hac ▸ hrank hbc)
      have hbc₀ : rank b = rank c := hab₀.symm.trans hac
      rw [heq a b hab₀] at hab
      rw [heq b c hbc₀, ← hab₀] at hbc
      rw [heq a c hac]
      exact (hinner _).trans a b c hab hbc

/-- **Comparing up to a bound** that is large enough for both. -/
theorem of_bounded (size : α → ℕ) {upTo : ℕ → α → α → ℤ} (hupTo : ∀ n, Orders (upTo n))
    (heq : ∀ n a b, size a ≤ n → size b ≤ n → cmp a b = upTo n a b) : Orders cmp := by
  refine ⟨fun a b => ?_, fun a b c hab hbc => ?_⟩
  · rw [heq (max (size a) (size b)) a b (le_max_left _ _) (le_max_right _ _),
      heq (max (size a) (size b)) b a (le_max_right _ _) (le_max_left _ _)]
    exact (hupTo _).swap a b
  · obtain ⟨n, ha, hb, hc⟩ : ∃ n, size a ≤ n ∧ size b ≤ n ∧ size c ≤ n :=
      ⟨size a + size b + size c, by omega, by omega, by omega⟩
    rw [heq n a b ha hb] at hab
    rw [heq n b c hb hc] at hbc
    rw [heq n a c ha hc]
    exact (hupTo n).trans a b c hab hbc

end Orders

/-! ## Binary search -/

/-- **The search finds where a test turns**, from true to false. -/
theorem partitionPoint_spec {before : ℕ → Bool} {n : ℕ}
    (hmono : ∀ i j, i ≤ j → j < n → before j = true → before i = true) {fuel lo hi : ℕ}
    (hfuel : hi - lo ≤ fuel) (hlo : lo ≤ hi) (hhi : hi ≤ n)
    (hbelow : ∀ i, i < lo → before i = true) (habove : ∀ i, hi ≤ i → i < n → before i = false) :
    (∀ i, i < partitionPoint before fuel lo hi → before i = true)
      ∧ ∀ i, partitionPoint before fuel lo hi ≤ i → i < n → before i = false := by
  induction fuel generalizing lo hi with
  | zero =>
    obtain rfl : hi = lo := by omega
    exact ⟨hbelow, habove⟩
  | succ fuel ih =>
    rw [partitionPoint]
    split
    · rename_i hlt
      simp only
      split
      · rename_i hmid
        refine ih (by omega) (by omega) hhi (fun i hi' => ?_) habove
        exact hmono i ((lo + hi) / 2) (by omega) (by omega) hmid
      · rename_i hmid
        refine ih (by omega) (by omega) (by omega) hbelow fun i hi' hn => ?_
        by_contra hbefore
        rw [Bool.not_eq_false] at hbefore
        exact hmid (hmono _ i hi' hn hbefore)
    · obtain rfl : hi = lo := by omega
      exact ⟨hbelow, habove⟩

/-- An element between those that it may follow and those that may follow it. -/
theorem pairwise_insertIdx_of {r : α → α → Prop} {l : List α} (hl : l.Pairwise r) {a : α}
    {point : ℕ} (hpoint : point ≤ l.length)
    (hbefore : ∀ i b, i < point → l[i]? = some b → r b a)
    (hafter : ∀ i b, point ≤ i → l[i]? = some b → r a b) : (l.insertIdx point a).Pairwise r := by
  induction l generalizing point with
  | nil =>
    obtain rfl : point = 0 := Nat.le_zero.mp hpoint
    exact List.pairwise_singleton r a
  | cons b l ih =>
    obtain ⟨hb, hl'⟩ := List.pairwise_cons.mp hl
    cases point with
    | zero =>
      refine List.pairwise_cons.mpr ⟨fun c hc => ?_, hl⟩
      obtain ⟨i, hi⟩ := List.mem_iff_getElem?.mp hc
      exact hafter i c (Nat.zero_le i) hi
    | succ point =>
      rw [List.insertIdx_succ_cons]
      refine List.pairwise_cons.mpr ⟨fun c hc => ?_, ih hl' (Nat.le_of_succ_le_succ hpoint)
        (fun i c hi => hbefore (i + 1) c (Nat.succ_lt_succ hi))
        fun i c hi => hafter (i + 1) c (Nat.succ_le_succ hi)⟩
      rcases (List.mem_insertIdx (Nat.le_of_succ_le_succ hpoint)).mp hc with rfl | hc
      · exact hbefore 0 b (Nat.succ_pos point) rfl
      · exact hb c hc

/-- In a list whose first elements pass a test the search finds where they end. -/
theorem partitionPoint_any_spec {p : α → Prop} [DecidablePred p] {l : List α}
    (hl : l.Pairwise fun a b => p b → p a) :
    (∀ i b, i < partitionPoint (fun mid => l[mid]?.any fun b => p b) l.length 0 l.length →
        l[i]? = some b → p b)
      ∧ ∀ i b, partitionPoint (fun mid => l[mid]?.any fun b => p b) l.length 0 l.length ≤ i →
        l[i]? = some b → ¬p b := by
  have hmono : ∀ i j, i ≤ j → j < l.length → (l[j]?.any fun b => p b) = true →
      (l[i]?.any fun b => p b) = true := by
    intro i j hij hj hbefore
    have hi : i < l.length := by omega
    rw [List.getElem?_eq_getElem hj, Option.any_some, decide_eq_true_eq] at hbefore
    rw [List.getElem?_eq_getElem hi, Option.any_some, decide_eq_true_eq]
    rcases hij.lt_or_eq with hlt | rfl
    · exact List.pairwise_iff_getElem.mp hl i j hi hj hlt hbefore
    · exact hbefore
  obtain ⟨hbefore, hafter⟩ := partitionPoint_spec hmono (Nat.sub_le l.length 0)
    (Nat.zero_le _) (Nat.le_refl _) (fun i hi => absurd hi (Nat.not_lt_zero i))
    fun i hi hn => absurd hn (not_lt.mpr hi)
  refine ⟨fun i b hi hb => ?_, fun i b hi hb => ?_⟩
  · have htest := hbefore i hi
    rw [hb, Option.any_some, decide_eq_true_eq] at htest
    exact htest
  · have htest := hafter i hi (List.getElem?_eq_some_iff.mp hb).1
    rw [hb, Option.any_some, decide_eq_false_iff_not] at htest
    exact htest

/-- **An element inserted where the search says** keeps a list sorted. -/
theorem pairwise_insertIdx (h : Orders cmp) {l : List α}
    (hl : l.Pairwise fun a b => cmp a b ≤ 0) (a : α) :
    (l.insertIdx (partitionPoint (fun mid => l[mid]?.any fun b => cmp b a ≤ 0) l.length 0 l.length)
      a).Pairwise fun a b => cmp a b ≤ 0 := by
  obtain ⟨hbefore, hafter⟩ :=
    partitionPoint_any_spec (hl.imp fun {b c} hbc => h.trans b c a hbc)
  exact pairwise_insertIdx_of hl (partitionPoint_le _ (Nat.zero_le _)) hbefore fun i b hi hb =>
    (h.total a b).resolve_right (hafter i b hi hb)

/-! ## One element more or less -/

/-- Put an element behind all that come not after it, as a stable sort does with the last one. -/
def insertAfter (cmp : α → α → ℤ) (k : α) (l : List α) : List α :=
  l.orderedInsert (fun a b => ¬cmp b a ≤ 0) k

theorem insertAfter_cons (k b : α) (l : List α) : insertAfter cmp k (b :: l)
    = if cmp b k ≤ 0 then b :: insertAfter cmp k l else k :: b :: l := by
  rw [insertAfter, insertAfter, List.orderedInsert_cons]
  by_cases hbk : cmp b k ≤ 0
  · rw [if_pos hbk, if_neg (not_not.mpr hbk)]
  · rw [if_neg hbk, if_pos hbk]

/-- Two elements find the same places in either order. -/
theorem Orders.orderedInsert_insertAfter (h : Orders cmp) (a k : α) (l : List α) :
    (insertAfter cmp k l).orderedInsert (fun a b => cmp a b ≤ 0) a
      = insertAfter cmp k (l.orderedInsert (fun a b => cmp a b ≤ 0) a) := by
  induction l with
  | nil =>
    rw [List.orderedInsert_nil, insertAfter_cons]
    by_cases hak : cmp a k ≤ 0 <;> simp [insertAfter, hak]
  | cons b l ih =>
    have htotal := h.total k b
    rw [insertAfter_cons, List.orderedInsert_cons]
    by_cases hbk : cmp b k ≤ 0
    · by_cases hab : cmp a b ≤ 0
      · have hak := h.trans a b k hab hbk
        simp [hbk, hab, hak, insertAfter_cons]
      · simp [hbk, hab, insertAfter_cons, ih]
    · by_cases hak : cmp a k ≤ 0
      · have hab := h.trans a k b hak (htotal.resolve_right hbk)
        simp [hbk, hab, hak, insertAfter_cons]
      · by_cases hab : cmp a b ≤ 0 <;> simp [hbk, hab, hak, insertAfter_cons]

/-- **The last element of a list is put behind its equals.** -/
theorem Orders.sortBy_concat (h : Orders cmp) (l : List α) (k : α) :
    sortBy cmp (l ++ [k]) = insertAfter cmp k (sortBy cmp l) := by
  induction l with
  | nil => rfl
  | cons a l ih =>
    rw [List.cons_append, sortBy, List.insertionSort_cons, ← sortBy, ih, sortBy, sortBy,
      List.insertionSort_cons]
    exact h.orderedInsert_insertAfter a k _

/-- Where the binary search inserts into a sorted list. -/
theorem insertIdx_eq_insertAfter {l : List α} (k : α) {point : ℕ} (hpoint : point ≤ l.length)
    (hbefore : ∀ i b, i < point → l[i]? = some b → cmp b k ≤ 0)
    (hafter : ∀ i b, point ≤ i → l[i]? = some b → ¬cmp b k ≤ 0) :
    l.insertIdx point k = insertAfter cmp k l := by
  induction l generalizing point with
  | nil =>
    obtain rfl : point = 0 := Nat.le_zero.mp hpoint
    rfl
  | cons b l ih =>
    rw [insertAfter_cons]
    cases point with
    | zero => rw [if_neg (hafter 0 b le_rfl rfl), List.insertIdx_zero]
    | succ point =>
      rw [if_pos (hbefore 0 b (Nat.succ_pos point) rfl), List.insertIdx_succ_cons,
        ih (Nat.le_of_succ_le_succ hpoint)
          (fun i c hi => hbefore (i + 1) c (Nat.succ_lt_succ hi))
          fun i c hi => hafter (i + 1) c (Nat.succ_le_succ hi)]

/-- **The binary search inserts as a stable sort does.** -/
theorem Orders.insertIdx_partitionPoint (h : Orders cmp) {l : List α}
    (hl : l.Pairwise fun a b => cmp a b ≤ 0) (k : α) :
    l.insertIdx (partitionPoint (fun mid => l[mid]?.any fun b => cmp b k ≤ 0) l.length 0 l.length) k
      = insertAfter cmp k l := by
  obtain ⟨hbefore, hafter⟩ :=
    partitionPoint_any_spec (hl.imp fun {b c} hbc => h.trans b c k hbc)
  exact insertIdx_eq_insertAfter k (partitionPoint_le _ (Nat.zero_le _)) hbefore hafter

/-- **A stable sort of fewer elements** leaves out the others. -/
theorem Orders.filter_sortBy (h : Orders cmp) (l : List α) (p : α → Bool) :
    (sortBy cmp l).filter p = sortBy cmp (l.filter p) := by
  have hinsert : ∀ (a : α) (l : List α), l.Pairwise (fun a b => cmp a b ≤ 0) →
      (l.orderedInsert (fun a b => cmp a b ≤ 0) a).filter p
        = if p a then (l.filter p).orderedInsert (fun a b => cmp a b ≤ 0) a else l.filter p := by
    intro a l hl
    induction l with
    | nil => simp [List.filter_cons]
    | cons b l ih =>
      obtain ⟨hb, hl'⟩ := List.pairwise_cons.mp hl
      rw [List.orderedInsert_cons]
      by_cases hab : cmp a b ≤ 0
      · rw [if_pos hab, List.filter_cons]
        split
        · -- the first of those that stay comes not before `b`
          have hfirst : ∀ c ∈ (b :: l).filter p, cmp a c ≤ 0 := fun c hc => by
            rcases List.mem_cons.mp (List.mem_of_mem_filter hc) with rfl | hc
            · exact hab
            · exact h.trans a b c hab (hb c hc)
          cases hrest : (b :: l).filter p with
          | nil => rfl
          | cons c rest =>
            rw [List.orderedInsert_cons, if_pos (hfirst c (hrest ▸ List.mem_cons_self))]
        · rfl
      · rw [if_neg hab, List.filter_cons, ih hl', List.filter_cons]
        by_cases hpa : p a = true <;> by_cases hpb : p b = true <;> simp [hpa, hpb, hab]
  induction l with
  | nil => rfl
  | cons a l ih =>
    rw [sortBy, List.insertionSort_cons, ← sortBy, hinsert a _ (pairwise_sortBy (h.consistent l)),
      ih, List.filter_cons]
    split
    · rw [sortBy, sortBy, List.insertionSort_cons]
    · rfl

/-- Alike lists take alike elements alike. -/
theorem forall₂_insertAfter {cmp' : β → β → ℤ} {R : α → β → Prop}
    (hcmp : ∀ a a' b b', R a a' → R b b' → (cmp a b ≤ 0 ↔ cmp' a' b' ≤ 0)) {k : α} {k' : β}
    (hk : R k k') {l : List α} {l' : List β} (hl : List.Forall₂ R l l') :
    List.Forall₂ R (insertAfter cmp k l) (insertAfter cmp' k' l') := by
  induction hl with
  | nil => exact List.Forall₂.cons hk List.Forall₂.nil
  | @cons b b' l l' hb hl ih =>
    rw [insertAfter_cons, insertAfter_cons]
    by_cases hbk : cmp b k ≤ 0
    · rw [if_pos hbk, if_pos ((hcmp _ _ _ _ hb hk).mp hbk)]
      exact List.Forall₂.cons hb ih
    · rw [if_neg hbk, if_neg fun h => hbk ((hcmp _ _ _ _ hb hk).mpr h)]
      exact List.Forall₂.cons hk (List.Forall₂.cons hb hl)

/-- What is erased at its index is left out. -/
theorem eraseIdx_eq_filter [DecidableEq β] {f : α → β} {l : List α} (hnd : (l.map f).Nodup)
    {i : ℕ} (hget : l[i]? = some a) :
    l.eraseIdx i = l.filter fun b => decide (f b ≠ f a) := by
  induction l generalizing i with
  | nil => exact nomatch hget
  | cons b l ih =>
    obtain ⟨hnot, hnd'⟩ := List.nodup_cons.mp hnd
    cases i with
    | zero =>
      obtain rfl := Option.some.inj hget
      have hall : ∀ c ∈ l, decide (f c ≠ f b) = true := fun c hc =>
        decide_eq_true fun heq => hnot (heq ▸ List.mem_map_of_mem hc)
      rw [List.eraseIdx_cons_zero, List.filter_cons, if_neg (by simp),
        List.filter_eq_self.mpr hall]
    | succ i =>
      have hmem : a ∈ l := List.mem_of_getElem? hget
      have hne : f b ≠ f a := fun heq => hnot (heq ▸ List.mem_map_of_mem hmem)
      rw [List.eraseIdx_cons_succ, List.filter_cons, if_pos (decide_eq_true hne), ih hnd' hget]

/-- Where nothing comes before an element, it is among those in front that tie with it. -/
theorem Orders.mem_takeWhile (h : Orders cmp) {k : α} {l : List α}
    (hl : l.Pairwise fun a b => cmp a b ≤ 0) (hk : k ∈ l) (hnot : ∀ a ∈ l, ¬cmp a k < 0) :
    k ∈ l.takeWhile fun a => decide (cmp a k = 0) := by
  induction l with
  | nil => exact nomatch hk
  | cons a l ih =>
    obtain ⟨ha, hl'⟩ := List.pairwise_cons.mp hl
    rcases List.mem_cons.mp hk with rfl | hk
    · rw [List.takeWhile_cons, if_pos (decide_eq_true (h.self k))]
      exact List.mem_cons_self
    · have htie : cmp a k = 0 := le_antisymm (ha k hk) (not_lt.mp (hnot a List.mem_cons_self))
      rw [List.takeWhile_cons, if_pos (decide_eq_true htie)]
      exact List.mem_cons_of_mem a (ih hl' hk fun b hb => hnot b (List.mem_cons_of_mem a hb))

/-- **The binary search finds an element** of a sorted list among those it ties with. -/
theorem Orders.mem_takeWhile_partitionPoint (h : Orders cmp) {k : α} {l : List α}
    (hl : l.Pairwise fun a b => cmp a b ≤ 0) (hk : k ∈ l) :
    k ∈ (l.drop (partitionPoint (fun mid => l[mid]?.any fun a => cmp a k < 0) l.length 0
      l.length)).takeWhile fun a => decide (cmp a k = 0) := by
  obtain ⟨hbefore, hafter⟩ := partitionPoint_any_spec (hl.imp fun hbc => h.trans_lt hbc)
  refine h.mem_takeWhile (hl.sublist (List.drop_sublist _ _)) ?_ fun a ha hlt => ?_
  · -- the element itself is not before the point
    obtain ⟨i, hi⟩ := List.mem_iff_getElem?.mp hk
    have hle : partitionPoint (fun mid => l[mid]?.any fun a => cmp a k < 0) l.length 0 l.length
        ≤ i := by
      by_contra hlt
      exact (hbefore i k (not_le.mp hlt) hi).ne (h.self k)
    obtain ⟨j, rfl⟩ := Nat.exists_eq_add_of_le hle
    rw [← List.getElem?_drop] at hi
    exact List.mem_of_getElem? hi
  · obtain ⟨i, hi⟩ := List.mem_iff_getElem?.mp ha
    rw [List.getElem?_drop] at hi
    exact hafter _ a (Nat.le_add_right _ i) hi hlt

/-! ## Two lists side by side -/

section SideBySide

variable {γ : Type*} {R : α → β → Prop} {l : List α} {l' : List β}

theorem forall₂_filterMap {f : α → Option β} (h : ∀ a ∈ l, ∃ b, f a = some b ∧ R a b) :
    List.Forall₂ R l (l.filterMap f) := by
  induction l with
  | nil => exact .nil
  | cons a l ih =>
    obtain ⟨b, hb, hR⟩ := h a List.mem_cons_self
    rw [List.filterMap_cons_some hb]
    exact .cons hR (ih fun a ha => h a (List.mem_cons_of_mem _ ha))

section

variable (h : List.Forall₂ R l l')

include h

theorem forall₂_exists_left {b : β} (hb : b ∈ l') : ∃ a ∈ l, R a b := by
  induction h with
  | nil => exact nomatch hb
  | cons hab _ ih =>
    rcases List.mem_cons.mp hb with rfl | hb
    · exact ⟨_, List.mem_cons_self, hab⟩
    · obtain ⟨a, ha, hR⟩ := ih hb
      exact ⟨a, List.mem_cons_of_mem _ ha, hR⟩

theorem forall₂_exists_right (ha : a ∈ l) : ∃ b ∈ l', R a b := by
  obtain ⟨b, hb, hR⟩ := forall₂_exists_left h.flip ha
  exact ⟨b, hb, hR⟩

theorem map_eq_of_forall₂ {f : α → γ} {g : β → γ} (hfg : ∀ a b, R a b → g b = f a) :
    l'.map g = l.map f := by
  induction h with
  | nil => rfl
  | cons hab _ ih => rw [List.map_cons, List.map_cons, hfg _ _ hab, ih]

theorem pairwise_of_forall₂ {S : α → α → Prop} {S' : β → β → Prop}
    (hS : ∀ a b a' b', R a a' → R b b' → S a b → S' a' b') (hl : l.Pairwise S) :
    l'.Pairwise S' := by
  induction h with
  | nil => exact .nil
  | cons hab hrest ih =>
    obtain ⟨hfirst, hl⟩ := List.pairwise_cons.mp hl
    refine .cons (fun b' hb' => ?_) (ih hl)
    obtain ⟨b, hb, hR⟩ := forall₂_exists_left hrest hb'
    exact hS _ _ _ _ hab hR (hfirst b hb)

end

end SideBySide
