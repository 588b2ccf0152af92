import MindooDB.Lib.ScanFeed

/-!
# Lib/CursorScan — pages cut from a list that is sorted by something else

Pages are cut from a list as it is, and the next one starts at the first element that is *behind*
the last one read (`ScanFeed.cutPage`).  If the list rises, every element is read once, whatever the
limits (`ScanFeed.drains_of_rises`).  If it falls somewhere, some limits make the pages go round for
ever, or leave an element out (`ScanFeed.exists_not_drains`).  Where some elements are read but not
shown, one that is the last of the list may be anywhere.
-/

namespace ScanFeed

open List

variable {α P : Type*} [LinearOrder P] (pos : α → P) (served : α → Bool) (l : List α)

/-- Where reading goes on; `none` if nothing is behind the cursor. -/
def resumeAt : Option P → Option ℕ
  | none => some 0
  | some c => l.findIdx? fun a => c < pos a

/-- **A page from there on**, of which the served elements are shown. -/
def cutPage (c : Option P) (n : ℕ) : Page α P :=
  match resumeAt pos l c with
  | none => ⟨[], c, false⟩
  | some start =>
    { entries := ((l.drop start).take n).filter served
      next := (((l.drop start).take n).getLast?.map pos).or c
      hasMore := start + ((l.drop start).take n).length < l.length }

/-- **Reading on gives just these elements**, in some order. -/
def Drains (scan : Option P → ℕ → Page α P) (limits : ℕ → ℕ) (expected : List α) : Prop :=
  ∃ fuel l, drain scan fuel limits none = some l ∧ l.Perm expected

/-- The elements a page can usefully end at or start from. -/
def resumable : List α := if l.getLast?.any served then l else l.dropLast

variable {pos served l}

variable (served l) in
theorem resumable_eq_take : ∃ m, resumable served l = l.take m ∧ m ≤ l.length
    ∧ l.length ≤ m + 1 ∧ (m = l.length ∨ ∀ a ∈ l.drop m, served a = false) := by
  unfold resumable
  split_ifs with hlast
  · exact ⟨l.length, (take_length).symm, le_rfl, Nat.le_succ _, .inl rfl⟩
  · refine ⟨l.length - 1, dropLast_eq_take, Nat.sub_le _ _, by omega, .inr ?_⟩
    intro a ha
    rcases eq_nil_or_concat l with rfl | ⟨front, z, rfl⟩
    · exact nomatch ha
    · rw [concat_eq_append] at ha hlast
      rw [length_append, length_singleton, Nat.add_sub_cancel, drop_left, mem_singleton] at ha
      rw [getLast?_concat] at hlast
      rw [ha]
      simpa using hlast

variable {c : Option P} {start : ℕ}

theorem cutPage_of_none (h : resumeAt pos l c = none) (n : ℕ) :
    cutPage pos served l c n = ⟨[], c, false⟩ := by
  rw [cutPage, h]

theorem drain_of_none (h : resumeAt pos l c = none) (fuel : ℕ) (limits : ℕ → ℕ) :
    drain (cutPage pos served l) (fuel + 1) limits c = some [] := by
  rw [drain, cutPage_of_none h, if_neg Bool.false_ne_true]

/-- A page that is not the last one. -/
theorem cutPage_of_lt {n : ℕ} (h : resumeAt pos l c = some start)
    (hlt : start + (n + 1) < l.length) : cutPage pos served l c (n + 1) =
      { entries := ((l.drop start).take (n + 1)).filter served
        next := some (pos (getElem l (start + n) (by omega)))
        hasMore := true } := by
  have hlength : ((l.drop start).take (n + 1)).length = n + 1 := by
    rw [length_take, length_drop]
    omega
  have hlast : ((l.drop start).take (n + 1)).getLast?
      = some (getElem l (start + n) (by omega)) := by
    rw [getLast?_eq_getElem?, hlength, getElem?_take, if_pos (by omega),
      getElem?_drop, getElem?_eq_getElem]
    rfl
  rw [cutPage, h]
  dsimp only
  rw [hlength, hlast, decide_eq_true hlt]
  rfl

variable (served) in
/-- A last page. -/
theorem cutPage_of_le {n : ℕ} (h : resumeAt pos l c = some start) (hle : l.length ≤ start + n) :
    (cutPage pos served l c n).entries = (l.drop start).filter served
      ∧ (cutPage pos served l c n).hasMore = false := by
  have hall : (l.drop start).take n = l.drop start := take_of_length_le (by
    rw [length_drop]
    omega)
  rw [cutPage, h]
  dsimp only
  rw [hall]
  refine ⟨rfl, decide_eq_false ?_⟩
  rw [length_drop]
  omega

/-! ## Where it rises -/

section Rises

variable {m : ℕ}

/-- The element behind the cursor comes next. -/
theorem resumeAt_next {i : ℕ} (hi : i + 1 < l.length)
    (hbefore : ∀ j (_ : j ≤ i), pos (getElem l j (by omega)) ≤ pos (getElem l i (by omega)))
    (hnext : pos (getElem l i (by omega)) < pos l[i + 1]) :
    resumeAt pos l (some (pos (getElem l i (by omega)))) = some (i + 1) := by
  rw [resumeAt, findIdx?_eq_some_iff_getElem]
  refine ⟨hi, decide_eq_true hnext, fun j hj => ?_⟩
  rw [decide_eq_true_eq]
  exact not_lt.mpr (hbefore j (Nat.le_of_lt_succ hj))

theorem resumeAt_of_rises (h : (l.take m).Pairwise fun a b => pos a < pos b)
    (hm : l.length ≤ m + 1) (hlast : m = l.length ∨ ∀ a ∈ l.drop m, served a = false) {i : ℕ}
    (hi : i + 1 < l.length) :
    resumeAt pos l (some (pos (getElem l i (by omega)))) = some (i + 1)
      ∨ (resumeAt pos l (some (pos (getElem l i (by omega)))) = none
        ∧ (l.drop (i + 1)).filter served = []) := by
  have hrises : ∀ j k (_ : j < k) (hk : k < l.length), k < m →
      pos (getElem l j (by omega)) < pos l[k] := by
    intro j k hjk hk hkm
    have hpair := pairwise_iff_getElem.mp h j k (by rw [length_take]; omega)
      (by rw [length_take]; omega) hjk
    rw [getElem_take, getElem_take] at hpair
    exact hpair
  have hbefore : ∀ j (_ : j ≤ i), pos (getElem l j (by omega)) ≤ pos (getElem l i (by omega)) := by
    intro j hj
    rcases Nat.eq_or_lt_of_le hj with rfl | hlt
    · exact le_rfl
    · exact (hrises j i hlt (by omega) (by omega)).le
  by_cases hin : i + 1 < m
  · exact .inl (resumeAt_next hi hbefore (hrises i (i + 1) (Nat.lt_succ_self i) hi hin))
  · by_cases hnext : pos (getElem l i (by omega)) < pos l[i + 1]
    · exact .inl (resumeAt_next hi hbefore hnext)
    · refine .inr ⟨?_, ?_⟩
      · rw [resumeAt, findIdx?_eq_none_iff]
        intro a ha
        obtain ⟨j, hj, rfl⟩ := getElem_of_mem ha
        refine decide_eq_false (not_lt.mpr ?_)
        by_cases hji : j ≤ i
        · exact hbefore j hji
        · obtain rfl : j = i + 1 := by omega
          exact not_lt.mp hnext
      · obtain rfl : m = i + 1 := by omega
        refine filter_eq_nil_iff.mpr fun a ha => ?_
        rw [hlast.resolve_left (by omega) a ha]
        exact Bool.false_ne_true

theorem drain_of_rises (h : (l.take m).Pairwise fun a b => pos a < pos b)
    (hm : l.length ≤ m + 1) (hlast : m = l.length ∨ ∀ a ∈ l.drop m, served a = false) (fuel : ℕ)
    {limits : ℕ → ℕ} (hlimits : ∀ i, 1 ≤ limits i)
    (hstart : resumeAt pos l c = some start) (hfuel : l.length - start < fuel) :
    drain (cutPage pos served l) fuel limits c = some ((l.drop start).filter served) := by
  induction fuel generalizing limits c start with
  | zero => exact nomatch hfuel
  | succ fuel ih =>
    rw [drain]
    by_cases hlt : start + limits 0 < l.length
    · obtain ⟨n, hn⟩ : ∃ n, limits 0 = n + 1 := Nat.exists_eq_add_of_le' (hlimits 0)
      rw [hn] at hlt ⊢
      rw [cutPage_of_lt hstart hlt, if_pos rfl]
      have hrest : (l.drop start).filter served
          = ((l.drop start).take (n + 1)).filter served
            ++ (l.drop (start + n + 1)).filter served := by
        rw [← filter_append, Nat.add_assoc, ← drop_drop, take_append_drop]
      rcases resumeAt_of_rises h hm hlast (i := start + n) (by omega) with hnext | ⟨hnone, hnil⟩
      · rw [ih (fun i => hlimits (i + 1)) hnext (by omega), hrest]
        rfl
      · obtain ⟨fuel, rfl⟩ : ∃ k, fuel = k + 1 := Nat.exists_eq_add_of_le' (by omega)
        rw [drain_of_none hnone, hrest, hnil]
        rfl
    · obtain ⟨hentries, hmore⟩ := cutPage_of_le served hstart (not_lt.mp hlt)
      rw [hmore, if_neg Bool.false_ne_true, hentries]

end Rises

/-- **A list that rises** is read completely, each element once. -/
theorem drains_of_rises (h : (resumable served l).Pairwise fun a b => pos a < pos b)
    {limits : ℕ → ℕ} (hlimits : ∀ i, 1 ≤ limits i) :
    Drains (cutPage pos served l) limits (l.filter served) := by
  obtain ⟨m, hm, -, hlength, hlast⟩ := resumable_eq_take served l
  rw [hm] at h
  refine ⟨l.length + 1, _, drain_of_rises h hlength hlast (l.length + 1) hlimits rfl
    (Nat.lt_succ_of_le (Nat.sub_le _ _)), ?_⟩
  rw [drop_zero]

/-! ## Where it falls -/

section Falls

variable {i : ℕ}

/-- The list rises up to an element and falls behind it. -/
structure FallsAt (pos : α → P) (l : List α) (i : ℕ) : Prop where
  inside : i + 1 < l.length
  rises : ∀ j k (_ : j < k) (_ : k ≤ i), pos (getElem l j (by omega)) < pos (getElem l k (by omega))
  falls : pos l[i + 1] < pos (getElem l i (by omega))

/-- Where a list does not rise, it falls somewhere first. -/
theorem exists_fallsAt (hpos : l.Pairwise fun a b => pos a ≠ pos b) {m : ℕ} (hm : m ≤ l.length)
    (h : ¬ (l.take m).Pairwise fun a b => pos a < pos b) :
    ∃ i, FallsAt pos l i ∧ i + 1 < m := by
  have htrans : IsTrans α fun a b => pos a < pos b := ⟨fun _ _ _ => lt_trans⟩
  have hbad : ∃ i, ∃ hi : i + 1 < m,
      ¬ pos (getElem l i (by omega)) < pos (getElem l (i + 1) (by omega)) := by
    by_contra hnone
    push Not at hnone
    refine h (isChain_iff_pairwise.mp (isChain_iff_getElem.mpr fun i hi => ?_))
    rw [length_take] at hi
    rw [getElem_take, getElem_take]
    exact hnone i (by omega)
  obtain ⟨hi, hfall⟩ := Nat.find_spec hbad
  generalize hfind : Nat.find hbad = i at hi hfall
  have hstep : ∀ k (hk : k < i),
      pos (getElem l k (by omega)) < pos (getElem l (k + 1) (by omega)) := by
    intro k hk
    by_contra hfall'
    exact Nat.find_min hbad (m := k) (hfind ▸ hk) ⟨by omega, hfall'⟩
  refine ⟨i, ⟨by omega, ?_, ?_⟩, hi⟩
  · intro j k hjk hki
    induction k, hjk using Nat.le_induction with
    | base => exact hstep j (by omega)
    | succ k hjk ih => exact (ih (by omega)).trans (hstep k (by omega))
  · have hne := pairwise_iff_getElem.mp hpos i (i + 1) (by omega) (by omega)
      (Nat.lt_succ_self i)
    exact lt_of_le_of_ne (not_lt.mp hfall) hne.symm

namespace FallsAt

theorem le (h : FallsAt pos l i) {j : ℕ} (hj : j ≤ i) {k : ℕ} (hk : k ≤ j) :
    pos (getElem l k (by have := h.inside; omega))
      ≤ pos (getElem l j (by have := h.inside; omega)) := by
  rcases Nat.eq_or_lt_of_le hk with rfl | hlt
  · exact le_rfl
  · exact (h.rises k j hlt hj).le

theorem resumeAt_before (h : FallsAt pos l i) (hstart : start < i) :
    resumeAt pos l (some (pos (getElem l start (by have := h.inside; omega))))
      = some (start + 1) := by
  have hinside := h.inside
  exact resumeAt_next (by omega) (fun j hj => h.le (by omega) hj)
    (h.rises start (start + 1) (Nat.lt_succ_self _) (by omega))

/-- Behind the fall, reading goes back. -/
theorem resumeAt_behind (h : FallsAt pos l i) :
    ∃ back ≤ i, resumeAt pos l (some (pos (getElem l (i + 1) h.inside))) = some back := by
  have hinside := h.inside
  cases hfind : resumeAt pos l (some (pos l[i + 1])) with
  | none =>
    rw [resumeAt, findIdx?_eq_none_iff] at hfind
    exact absurd h.falls (of_decide_eq_false (hfind l[i] (getElem_mem _)))
  | some back =>
    refine ⟨back, ?_, rfl⟩
    rw [resumeAt, findIdx?_eq_some_iff_getElem] at hfind
    obtain ⟨_, _, hmin⟩ := hfind
    by_contra hlt
    exact hmin i (not_le.mp hlt) (decide_eq_true h.falls)

variable (served) in
/-- **Round for ever**: single elements up to the fall, then both sides of it. -/
theorem exists_drain_eq_none (h : FallsAt pos l i) (hmore : i + 2 < l.length) :
    ∃ limits : ℕ → ℕ, (∀ k, limits k = 1 ∨ limits k = 2)
      ∧ ∀ fuel, drain (cutPage pos served l) fuel limits none = none := by
  have hinside := h.inside
  obtain ⟨back, hback, hresume⟩ := h.resumeAt_behind
  let next : ℕ → ℕ := fun start => if start < i then start + 1 else back
  let limit : ℕ → ℕ := fun start => if start < i then 1 else 2
  suffices ∀ fuel start c, start ≤ i → resumeAt pos l c = some start →
      drain (cutPage pos served l) fuel (fun k => limit (next^[k] start)) c = none by
    refine ⟨fun k => limit (next^[k] 0), fun k => ?_, fun fuel =>
      this fuel 0 none (Nat.zero_le _) rfl⟩
    change (if _ then 1 else 2) = 1 ∨ (if _ then 1 else 2) = 2
    split_ifs
    · exact .inl rfl
    · exact .inr rfl
  intro fuel
  induction fuel with
  | zero => exact fun _ _ _ _ => rfl
  | succ fuel ih =>
    intro start c hstart hc
    have hshift : (fun k => limit (next^[k + 1] start)) = fun k => limit (next^[k] (next start)) :=
      rfl
    rw [drain, hshift]
    change (if (cutPage pos served l c (limit start)).hasMore then _ else _) = none
    by_cases hlt : start < i
    · have hlimit : limit start = 0 + 1 := if_pos hlt
      have hnext : next start = start + 1 := if_pos hlt
      rw [show limit (next^[0] start) = limit start from rfl, hlimit,
        cutPage_of_lt hc (by omega), if_pos rfl, hnext]
      exact congrArg (Option.map _) (ih _ _ (by omega) (h.resumeAt_before hlt))
    · have hlimit : limit start = 1 + 1 := if_neg hlt
      have hnext : next start = back := if_neg hlt
      obtain rfl : start = i := by omega
      rw [show limit (next^[0] start) = limit start from rfl, hlimit,
        cutPage_of_lt hc (by omega), if_pos rfl, hnext]
      exact congrArg (Option.map _) (ih _ _ hback hresume)

/-- **Left out**: an element that is behind the fall and the last one. -/
theorem last_notMem_drain (h : FallsAt pos l i) (hpos : l.Pairwise fun a b => pos a ≠ pos b)
    (hend : i + 2 = l.length) (fuel : ℕ) {shown : List α}
    (hstart : start ≤ i) (hc : resumeAt pos l c = some start)
    (hdrain : drain (cutPage pos served l) fuel (fun _ => 1) c = some shown) :
    getElem l (i + 1) h.inside ∉ shown := by
  have hinside := h.inside
  induction fuel generalizing start c shown with
  | zero => cases hdrain
  | succ fuel ih =>
    have hentries : l[i + 1] ∉ ((l.drop start).take (0 + 1)).filter served := by
      intro hmem
      have hhead := mem_of_mem_filter hmem
      rw [drop_eq_getElem_cons (by omega), take_succ_cons, take_zero, mem_singleton] at hhead
      exact pairwise_iff_getElem.mp hpos start (i + 1) (by omega) (by omega) (by omega)
        (congrArg pos hhead).symm
    rw [drain, show (1 : ℕ) = 0 + 1 from rfl, cutPage_of_lt hc (by omega), if_pos rfl] at hdrain
    obtain ⟨rest, hrest, rfl⟩ := Option.map_eq_some_iff.mp hdrain
    refine fun hmem => (mem_append.mp hmem).elim hentries ?_
    by_cases hlt : start < i
    · exact ih (by omega) (h.resumeAt_before hlt) hrest
    · obtain rfl : start = i := by omega
      have hnone : resumeAt pos l (some (pos (getElem l (start + 0) (by omega)))) = none := by
        rw [resumeAt, findIdx?_eq_none_iff]
        intro a ha
        obtain ⟨j, hj, rfl⟩ := getElem_of_mem ha
        refine decide_eq_false (not_lt.mpr ?_)
        by_cases hj' : j ≤ start
        · exact h.le le_rfl hj'
        · obtain rfl : j = start + 1 := by omega
          exact h.falls.le
      cases fuel with
      | zero => cases hrest
      | succ fuel =>
        rw [drain_of_none hnone] at hrest
        rw [← Option.some.inj hrest]
        exact not_mem_nil

end FallsAt

end Falls

/-- **A list that falls** is not read completely with some limits, of one and two elements. -/
theorem exists_not_drains (hpos : l.Pairwise fun a b => pos a ≠ pos b)
    (h : ¬ (resumable served l).Pairwise fun a b => pos a < pos b) :
    ∃ limits : ℕ → ℕ, (∀ k, limits k = 1 ∨ limits k = 2)
      ∧ ¬ Drains (cutPage pos served l) limits (l.filter served) := by
  by_cases hlast : l.getLast?.any served
  · rw [resumable, if_pos hlast, ← take_length (l := l)] at h
    obtain ⟨i, hfalls, hi⟩ := exists_fallsAt hpos le_rfl h
    by_cases hmore : i + 2 < l.length
    · obtain ⟨limits, hlimits, hnone⟩ := hfalls.exists_drain_eq_none served hmore
      refine ⟨limits, hlimits, ?_⟩
      rintro ⟨fuel, shown, hshown, -⟩
      exact nomatch (hnone fuel).symm.trans hshown
    · have hend : i + 2 = l.length := by omega
      refine ⟨fun _ => 1, fun _ => .inl rfl, ?_⟩
      rintro ⟨fuel, shown, hshown, hperm⟩
      have hout := hfalls.last_notMem_drain hpos hend fuel (Nat.zero_le i) rfl hshown
      refine hout (hperm.mem_iff.mpr (mem_filter.mpr ⟨getElem_mem _, ?_⟩))
      rw [getLast?_eq_getElem?, ← hend, getElem?_eq_getElem (by omega)] at hlast
      exact hlast
  · rw [resumable, if_neg hlast, dropLast_eq_take] at h
    obtain ⟨i, hfalls, hi⟩ := exists_fallsAt hpos (Nat.sub_le _ _) h
    obtain ⟨limits, hlimits, hnone⟩ :=
      hfalls.exists_drain_eq_none served (by omega)
    refine ⟨limits, hlimits, ?_⟩
    rintro ⟨fuel, shown, hshown, -⟩
    exact nomatch (hnone fuel).symm.trans hshown

end ScanFeed
