import MindooDB.Lib.OrdersOn
import MindooDB.View.Comparator
import MindooDB.View.Runs

/-!
# View/AnyOrder — the comparators on all values

The comparators of `core/indexing/virtualviews` and the sort of `core/query/executeQuery.ts` on all
values that a field or an expression can have: numbers that are infinite or not a number, dates that
are invalid, and the sentinels of range scans.  A comparison of two of them may be `NaN`, and the
text of an object may throw; both are `none`.

Given that the collations order strings, `compareValues` is a total preorder exactly on the values
that compare with themselves: finite numbers, valid dates and whatever has a text
(`totalPreorderOn_compareValues_iff`).  The comparators of sort keys and rows are total preorders
exactly where the values they come to are such (`totalPreorderOn_compareAny_iff`,
`totalPreorderOn_compareCandidates_iff`).
-/

namespace MindooDB

inductive IeeeNumber
  | nan
  | negativeInfinity
  | finite (q : ℚ)
  | positiveInfinity
  deriving DecidableEq

/-- The sign of `a - b`; `none` is `NaN`. -/
def IeeeNumber.subtract : IeeeNumber → IeeeNumber → Option ℤ
  | nan, _ => none
  | _, nan => none
  | finite a, finite b => some (differenceSign a b)
  | negativeInfinity, negativeInfinity => none
  | positiveInfinity, positiveInfinity => none
  | negativeInfinity, _ => some (-1)
  | _, negativeInfinity => some 1
  | positiveInfinity, _ => some 1
  | _, positiveInfinity => some (-1)

/-- Any value. -/
inductive AnyValue
  | undefined
  | null
  | lowSortVal
  | highSortVal
  | bool (b : Bool)
  | number (n : IeeeNumber)
  | string (s : JSString)
  /-- The time is `none` for an invalid date. -/
  | date (time : Option ℤ)
  | array (items : List AnyValue)
  | object (fields : List (JSString × AnyValue))

/-- The language runtime, with `String(v)` of any value; `none` where it throws. -/
structure AnyRuntime extends Runtime where
  textOf : AnyValue → Option JSString

namespace AnyValue

def isNullish : AnyValue → Bool
  | undefined => true
  | null => true
  | _ => false

def sortsAsNull : AnyValue → Bool
  | string s => s.isEmpty
  | v => v.isNullish

/-- `getDataTypeSortOrder` of a value that is not null. -/
def getDataTypeSortOrder : AnyValue → ℤ
  | number _ => 1
  | date _ => 2
  | string _ => 3
  | _ => 4

/-- The result if one of the two is a sentinel. -/
def compareSentinels : AnyValue → AnyValue → Option ℤ
  | lowSortVal, lowSortVal => some 0
  | lowSortVal, _ => some (-1)
  | _, lowSortVal => some 1
  | highSortVal, highSortVal => some 0
  | highSortVal, _ => some 1
  | _, highSortVal => some (-1)
  | _, _ => none

variable (env : AnyRuntime)

/-- The comparison of two values of the same type. -/
def compareSameType : AnyValue → AnyValue → Option ℤ
  | string a, string b => some (env.baseSensitivityCollator a b)
  | number a, number b => a.subtract b
  | date a, date b => do return differenceSign (← a) (← b)
  | a, b => do return env.defaultCollator (← env.textOf a) (← env.textOf b)

/-- By emptiness, by type, then by value. -/
def compareValues (a b : AnyValue) (descending : Bool) : Option ℤ :=
  match compareSentinels a b with
  | some result => some result
  | none =>
    if a.sortsAsNull then some (if b.sortsAsNull then 0 else if descending then -1 else 1)
    else if b.sortsAsNull then some (if descending then 1 else -1)
    else if a.getDataTypeSortOrder ≠ b.getDataTypeSortOrder then
      some ((if descending then -1 else 1) * (a.getDataTypeSortOrder - b.getDataTypeSortOrder))
    else
      let result := compareSameType env a b
      if descending then result.map Neg.neg else result

end AnyValue

/-! ## Sort keys and rows -/

structure AnySortKey where
  isCategory : Bool
  values : List AnyValue
  origin : JSString
  docId : JSString

/-- The key as far as the tie-break reads it. -/
def AnySortKey.scoped (key : AnySortKey) : ViewEntrySortKey :=
  ⟨key.isCategory, [], key.origin, key.docId⟩

namespace ViewEntrySortKeyComparator

open AnyValue

variable (env : AnyRuntime) (cmp : ViewEntrySortKeyComparator)

def compareAnyOrigin (o1 o2 : AnySortKey) : ℤ :=
  compareOriginAndDocId env.toRuntime o1.scoped o2.scoped

def compareAnyCategories (o1 o2 : AnySortKey) : Option ℤ :=
  let catVal1 := o1.values.head?.getD .null
  let catVal2 := o2.values.head?.getD .null
  match compareSentinels catVal1 catVal2 with
  | some result => some result
  | none =>
    if catVal1.isNullish then
      if catVal2.isNullish then some (compareAnyOrigin env o1 o2)
      else some (if cmp.categoryOrderDescending then -1 else 1)
    else if catVal2.isNullish then some (if cmp.categoryOrderDescending then 1 else -1)
    else
      compareNext (AnyValue.compareValues env catVal1 catVal2 cmp.categoryOrderDescending)
        (some (compareAnyOrigin env o1 o2))

/-- The loop of `compareDocuments`, over the columns' directions and what is left of the values. -/
def compareAnyColumns (o1 o2 : AnySortKey) (descending : List Bool) :
    ℕ → List AnyValue → List AnyValue → Option ℤ
  | 0, _, _ => some (compareAnyOrigin env o1 o2)
  | n + 1, values1, values2 =>
    let currValue1 := values1.head?.getD .null
    let currValue2 := values2.head?.getD .null
    match compareSentinels currValue1 currValue2 with
    | some result => some result
    | none =>
      compareNext (AnyValue.compareValues env currValue1 currValue2 (descending.head?.getD false))
        (compareAnyColumns o1 o2 descending.tail n values1.tail values2.tail)

def compareAnyDocuments (o1 o2 : AnySortKey) : Option ℤ :=
  compareAnyColumns env o1 o2 cmp.docOrderPerColumnDescending
    (max o1.values.length o2.values.length) o1.values o2.values

/-- `compare`. -/
def compareAny (o1 o2 : AnySortKey) : Option ℤ :=
  match o1.isCategory, o2.isCategory with
  | true, false => some (if cmp.categoriesOnTopOfDocuments then -1 else 1)
  | false, true => some (if cmp.categoriesOnTopOfDocuments then 1 else -1)
  | true, true => cmp.compareAnyCategories env o1 o2
  | false, false => cmp.compareAnyDocuments env o1 o2

end ViewEntrySortKeyComparator

/-- A candidate of a query as its sort reads it. -/
structure CandidateRow where
  sortValues : List AnyValue
  docId : JSString

/-- The comparator of `sortAndPage`, over the directions of the sort keys. -/
def compareRows (env : AnyRuntime) (left right : CandidateRow) :
    List Bool → List AnyValue → List AnyValue → Option ℤ
  | [], _, _ => some (env.localeCompare left.docId right.docId)
  | descending :: sortKeys, leftValues, rightValues =>
    compareNext (AnyValue.compareValues env (leftValues.head?.getD .undefined)
        (rightValues.head?.getD .undefined) descending)
      (compareRows env left right sortKeys leftValues.tail rightValues.tail)

def compareCandidates (env : AnyRuntime) (sortKeys : List Bool) (left right : CandidateRow) :
    Option ℤ :=
  compareRows env left right sortKeys left.sortValues right.sortValues

end MindooDB

namespace MindooDB

variable {env : AnyRuntime}

namespace AnyValue

/-! ## The order of the values -/

/-- **A finite number, a valid date, or what has a text.** -/
def Comparable (env : AnyRuntime) : AnyValue → Prop
  | number n => ∃ q, n = .finite q
  | date time => ∃ t, time = some t
  | bool b => (env.textOf (bool b)).isSome
  | array items => (env.textOf (array items)).isSome
  | object fields => (env.textOf (object fields)).isSome
  | _ => True

/-- The sentinels are the lowest and the highest. -/
def sentinelRank : AnyValue → ℤ
  | lowSortVal => -1
  | highSortVal => 1
  | _ => 0

/-- The class of a value that is no sentinel: those that sort as null come last. -/
def typeRank (v : AnyValue) : ℤ := if v.sortsAsNull then 5 else v.getDataTypeSortOrder

/-- What the values of a class are compared by, zero or empty for those of another one. -/
def asNumber : AnyValue → ℚ
  | number (.finite q) => q
  | _ => 0

def asTime : AnyValue → ℤ
  | date (some time) => time
  | _ => 0

def asString : AnyValue → JSString
  | string s => s
  | _ => ""

variable (env) in
/-- How the values of a class are ordered. -/
def orderInClass (rank : ℤ) (a b : AnyValue) : ℤ :=
  if rank = 1 then differenceSign a.asNumber b.asNumber
  else if rank = 2 then differenceSign a.asTime b.asTime
  else if rank = 3 then env.baseSensitivityCollator a.asString b.asString
  else if rank = 4 then
    env.defaultCollator ((env.textOf a).getD "") ((env.textOf b).getD "")
  else 0

variable (env) in
/-- The values that are no sentinels, by their classes. -/
def orderTyped (descending : Bool) (a b : AnyValue) : ℤ :=
  let ascending := if a.typeRank < b.typeRank then -1 else if b.typeRank < a.typeRank then 1
    else orderInClass env a.typeRank a b
  if descending then -ascending else ascending

variable (env) in
/-- **The order of all values.** -/
def orderValues (descending : Bool) (a b : AnyValue) : ℤ :=
  if a.sentinelRank < b.sentinelRank then -1 else if b.sentinelRank < a.sentinelRank then 1
  else if a.sentinelRank = 0 then orderTyped env descending a b else 0

theorem orders_orderInClass (h : env.Collates) (rank : ℤ) : Orders (orderInClass env rank) :=
  orders_byClass (orders_differenceSign.comap asNumber)
    (orders_differenceSign.comap fun v : AnyValue => (v.asTime : ℚ))
    (h.baseSensitivityCollator.comap asString)
    (h.defaultCollator.comap fun v => (env.textOf v).getD "") rank

/-- Two classes one after the other. -/
theorem orders_ranked {α : Type*} (rank : α → ℤ) (inner : ℤ → α → α → ℤ)
    (hinner : ∀ r, Orders (inner r)) : Orders fun a b =>
      if rank a < rank b then -1 else if rank b < rank a then 1 else inner (rank a) a b := by
  refine Orders.of_rank rank hinner (fun a b hlt => ?_) (fun a b hgt => ?_) fun a b heq => ?_
  · rw [if_pos hlt]
    decide
  · rw [if_neg hgt.not_gt, if_pos hgt]
    decide
  · rw [if_neg heq.not_lt, if_neg heq.symm.not_lt]

theorem orders_orderTyped (h : env.Collates) (descending : Bool) :
    Orders (orderTyped env descending) := by
  have hascending := orders_ranked typeRank (orderInClass env) (orders_orderInClass h)
  cases descending with
  | false => exact hascending
  | true => exact hascending.reverse

theorem orders_orderValues (h : env.Collates) (descending : Bool) :
    Orders (orderValues env descending) := by
  refine orders_ranked sentinelRank
    (fun rank a b => if rank = 0 then orderTyped env descending a b else 0) fun rank => ?_
  by_cases hrank : rank = 0
  · simp only [hrank, if_true]
    exact orders_orderTyped h descending
  · simp only [hrank, if_false]
    exact Orders.const

/-! ## Agreement -/

variable {a b : AnyValue}

theorem compareSentinels_eq (a b : AnyValue) : compareSentinels a b =
    if a.sentinelRank = 0 ∧ b.sentinelRank = 0 then none
    else some (if a.sentinelRank < b.sentinelRank then -1
      else if b.sentinelRank < a.sentinelRank then 1 else 0) := by
  cases a <;> cases b <;> rfl

/-- The result where a value is a sentinel. -/
theorem agrees_compareSentinels {v w : AnyValue} {next : Option ℤ} {c : ℤ}
    (h : v.sentinelRank = 0 → w.sentinelRank = 0 → AgreesWith next c) :
    AgreesWith (match compareSentinels v w with
      | some result => some result
      | none => next)
      (if v.sentinelRank < w.sentinelRank then -1 else if w.sentinelRank < v.sentinelRank then 1
        else if v.sentinelRank = 0 then c else 0) := by
  rw [compareSentinels_eq]
  by_cases hsentinels : v.sentinelRank = 0 ∧ w.sentinelRank = 0
  · rw [if_pos hsentinels, hsentinels.1, hsentinels.2, if_neg (lt_irrefl 0), if_neg (lt_irrefl 0),
      if_pos rfl]
    exact h hsentinels.1 hsentinels.2
  · rw [if_neg hsentinels]
    dsimp only
    split_ifs with hlt hgt hzero
    · exact agrees_self _
    · exact agrees_self _
    · exact absurd ⟨hzero, le_antisymm (not_lt.mp hlt |>.trans hzero.le) (hzero ▸ not_lt.mp hgt)⟩
        hsentinels
    · exact agrees_self _

theorem getDataTypeSortOrder_eq_one (h : a.getDataTypeSortOrder = 1) : ∃ n, a = number n := by
  cases a <;> first | exact ⟨_, rfl⟩ | cases h

theorem getDataTypeSortOrder_eq_two (h : a.getDataTypeSortOrder = 2) : ∃ time, a = date time := by
  cases a <;> first | exact ⟨_, rfl⟩ | cases h

theorem getDataTypeSortOrder_eq_three (h : a.getDataTypeSortOrder = 3) : ∃ s, a = string s := by
  cases a <;> first | exact ⟨_, rfl⟩ | cases h

theorem getDataTypeSortOrder_cases (a : AnyValue) :
    a.getDataTypeSortOrder = 1 ∨ a.getDataTypeSortOrder = 2 ∨ a.getDataTypeSortOrder = 3 ∨
      a.getDataTypeSortOrder = 4 := by
  cases a <;> simp [getDataTypeSortOrder]

/-- The values that are compared as texts. -/
theorem compareSameType_of_text (ha : a.getDataTypeSortOrder = 4)
    (hb : b.getDataTypeSortOrder = 4) : compareSameType env a b =
      (do return env.defaultCollator (← env.textOf a) (← env.textOf b)) := by
  cases a <;> cases b <;> first | rfl | nomatch ha

/-- A value that is compared as a text. -/
theorem comparable_iff_textOf (h : a.getDataTypeSortOrder = 4) (hnull : a.sortsAsNull = false)
    (hsentinel : a.sentinelRank = 0) : a.Comparable env ↔ (env.textOf a).isSome := by
  cases a with
  | undefined | null => exact nomatch hnull
  | lowSortVal | highSortVal => exact nomatch hsentinel
  | number | date | string => nomatch h
  | bool | array | object => exact Iff.rfl

/-- **Values of the same type.** -/
theorem agrees_compareSameType (ha : a.Comparable env) (hb : b.Comparable env)
    (hsame : a.getDataTypeSortOrder = b.getDataTypeSortOrder) (hnull : a.sortsAsNull = false)
    (hnull' : b.sortsAsNull = false) (hsentinel : a.sentinelRank = 0)
    (hsentinel' : b.sentinelRank = 0) :
    AgreesWith (compareSameType env a b) (orderInClass env a.getDataTypeSortOrder a b) := by
  rcases a.getDataTypeSortOrder_cases with horder | horder | horder | horder
  · obtain ⟨n, rfl⟩ := getDataTypeSortOrder_eq_one horder
    obtain ⟨m, rfl⟩ := getDataTypeSortOrder_eq_one (hsame.symm.trans horder)
    obtain ⟨q, rfl⟩ := ha
    obtain ⟨r, rfl⟩ := hb
    exact agrees_self _
  · obtain ⟨time, rfl⟩ := getDataTypeSortOrder_eq_two horder
    obtain ⟨time', rfl⟩ := getDataTypeSortOrder_eq_two (hsame.symm.trans horder)
    obtain ⟨t, rfl⟩ := ha
    obtain ⟨t', rfl⟩ := hb
    exact agrees_self _
  · obtain ⟨s, rfl⟩ := getDataTypeSortOrder_eq_three horder
    obtain ⟨s', rfl⟩ := getDataTypeSortOrder_eq_three (hsame.symm.trans horder)
    exact agrees_self _
  · have horder' := hsame.symm.trans horder
    obtain ⟨text, htext⟩ := Option.isSome_iff_exists.mp
      ((comparable_iff_textOf horder hnull hsentinel).mp ha)
    obtain ⟨text', htext'⟩ := Option.isSome_iff_exists.mp
      ((comparable_iff_textOf horder' hnull' hsentinel').mp hb)
    rw [compareSameType_of_text horder horder', horder, orderInClass, htext, htext']
    exact agrees_self _

theorem typeRank_of_null (h : a.sortsAsNull = true) : a.typeRank = 5 := if_pos h

theorem typeRank_of_type (h : a.sortsAsNull = false) : a.typeRank = a.getDataTypeSortOrder :=
  if_neg (Bool.eq_false_iff.mp h)

theorem getDataTypeSortOrder_lt (a : AnyValue) : a.getDataTypeSortOrder < 5 := by
  rcases a.getDataTypeSortOrder_cases with h | h | h | h <;> omega

/-- **Values that compare with themselves** compare with each other, as the order has it. -/
theorem agrees_compareValues (ha : a.Comparable env) (hb : b.Comparable env) (descending : Bool) :
    AgreesWith (compareValues env a b descending) (orderValues env descending a b) := by
  refine agrees_compareSentinels fun hsentinel hsentinel' => ?_
  rw [orderTyped]
  dsimp only
  have hlt := a.getDataTypeSortOrder_lt
  have hlt' := b.getDataTypeSortOrder_lt
  cases hnull : a.sortsAsNull with
  | true =>
    rw [typeRank_of_null hnull, if_pos rfl]
    cases hnull' : b.sortsAsNull with
    | true =>
      rw [typeRank_of_null hnull']
      cases descending <;> exact agrees_self 0
    | false =>
      rw [typeRank_of_type hnull', if_neg hlt'.not_gt, if_pos hlt']
      cases descending
      · exact agrees_self 1
      · exact agrees_self (-1)
  | false =>
    rw [typeRank_of_type hnull, if_neg Bool.false_ne_true]
    cases hnull' : b.sortsAsNull with
    | true =>
      rw [typeRank_of_null hnull', if_pos rfl, if_pos hlt]
      cases descending
      · exact agrees_self (-1)
      · exact agrees_self 1
    | false =>
      rw [typeRank_of_type hnull', if_neg Bool.false_ne_true]
      by_cases hsame : a.getDataTypeSortOrder = b.getDataTypeSortOrder
      · rw [if_neg (not_not.mpr hsame), if_neg hsame.not_lt, if_neg hsame.symm.not_lt]
        have hagrees := agrees_compareSameType ha hb hsame hnull hnull' hsentinel hsentinel'
        cases descending
        · exact hagrees
        · exact hagrees.neg
      · rw [if_pos hsame]
        refine agrees_some.mpr ?_
        cases descending <;> split_ifs <;> simp <;> omega

theorem comparable_of_isSome {descending : Bool}
    (h : (compareValues env a a descending).isSome) : a.Comparable env := by
  have hsame (hnull : a.sortsAsNull = false) (hsentinel : a.sentinelRank = 0) :
      (compareSameType env a a).isSome := by
    rw [compareValues, compareSentinels_eq, if_pos ⟨hsentinel, hsentinel⟩, hnull,
      if_neg (not_not.mpr rfl)] at h
    cases descending with
    | false => exact h
    | true => exact Option.isSome_map ▸ h
  cases a with
  | undefined | null | lowSortVal | highSortVal | string => trivial
  | number n =>
    have hsub := hsame rfl rfl
    cases n with
    | finite q => exact ⟨q, rfl⟩
    | nan | negativeInfinity | positiveInfinity => nomatch hsub
  | date time =>
    have hsub := hsame rfl rfl
    cases time with
    | some t => exact ⟨t, rfl⟩
    | none => nomatch hsub
  | bool | array | object =>
    have hsub := hsame rfl rfl
    rw [compareSameType_of_text rfl rfl] at hsub
    by_contra hnone
    rw [Comparable, Bool.not_eq_true, Option.isSome_eq_false_iff, Option.isNone_iff_eq_none]
      at hnone
    rw [hnone] at hsub
    cases hsub

/-- **`compareValues` is a total preorder** exactly on values that compare with themselves. -/
theorem totalPreorderOn_compareValues_iff (h : env.Collates) (descending : Bool)
    (S : Set AnyValue) : TotalPreorderOn S (fun a b => compareValues env a b descending) ↔
      ∀ v ∈ S, v.Comparable env := by
  constructor
  · intro horders v hv
    exact comparable_of_isSome (horders.defined v hv v hv)
  · intro hcomparable
    exact .of_agrees (orders_orderValues h descending) fun a ha b hb =>
      agrees_compareValues (hcomparable a ha) (hcomparable b hb) descending

end AnyValue

variable {values : List AnyValue}

namespace ViewEntrySortKeyComparator

open AnyValue

variable (cmp : ViewEntrySortKeyComparator)

theorem orders_compareAnyOrigin (h : env.Collates) : Orders (compareAnyOrigin env) :=
  (orders_compareOriginAndDocId h).comap AnySortKey.scoped

/-! ## Categories -/

/-- The value that a category is sorted by. -/
def categoryValueOf (key : AnySortKey) : AnyValue := key.values.head?.getD .null

/-- What is null comes last, or first when descending. -/
def nullRank (descending : Bool) (v : AnyValue) : ℤ :=
  if v.isNullish then (if descending then -1 else 1) else 0

variable (env) in
/-- The order of the categories that are no sentinels. -/
def orderNamed (a b : AnySortKey) : ℤ :=
  let rank (key : AnySortKey) := nullRank cmp.categoryOrderDescending (categoryValueOf key)
  if rank a < rank b then -1 else if rank b < rank a then 1
  else if rank a = 0 then
    if orderValues env cmp.categoryOrderDescending (categoryValueOf a) (categoryValueOf b) ≠ 0 then
      orderValues env cmp.categoryOrderDescending (categoryValueOf a) (categoryValueOf b)
    else compareAnyOrigin env a b
  else compareAnyOrigin env a b

variable (env) in
def orderCategories (a b : AnySortKey) : ℤ :=
  let rank (key : AnySortKey) := (categoryValueOf key).sentinelRank
  if rank a < rank b then -1 else if rank b < rank a then 1
  else if rank a = 0 then cmp.orderNamed env a b else 0

theorem orders_orderNamed (h : env.Collates) : Orders (cmp.orderNamed env) := by
  refine orders_ranked (fun key => nullRank cmp.categoryOrderDescending (categoryValueOf key))
    (fun rank a b => if rank = 0 then
      (if orderValues env cmp.categoryOrderDescending (categoryValueOf a) (categoryValueOf b) ≠ 0
        then orderValues env cmp.categoryOrderDescending (categoryValueOf a) (categoryValueOf b)
        else compareAnyOrigin env a b) else compareAnyOrigin env a b) fun rank => ?_
  by_cases hrank : rank = 0
  · simp only [hrank, if_true]
    exact ((orders_orderValues h cmp.categoryOrderDescending).comap categoryValueOf).lex
      (orders_compareAnyOrigin h)
  · simp only [hrank, if_false]
    exact orders_compareAnyOrigin h

theorem orders_orderCategories (h : env.Collates) : Orders (cmp.orderCategories env) := by
  refine orders_ranked (fun key => (categoryValueOf key).sentinelRank)
    (fun rank a b => if rank = 0 then cmp.orderNamed env a b else 0) fun rank => ?_
  by_cases hrank : rank = 0
  · simp only [hrank, if_true]
    exact cmp.orders_orderNamed h
  · simp only [hrank, if_false]
    exact Orders.const

variable {a : AnySortKey}

theorem agrees_compareAnyCategories {b : AnySortKey} (ha : (categoryValueOf a).Comparable env)
    (hb : (categoryValueOf b).Comparable env) :
    AgreesWith (cmp.compareAnyCategories env a b) (cmp.orderCategories env a b) := by
  refine agrees_compareSentinels fun _ _ => ?_
  have hvalues := (agrees_compareValues ha hb cmp.categoryOrderDescending).next
    fun _ => agrees_self (compareAnyOrigin env a b)
  unfold orderNamed nullRank
  dsimp only [categoryValueOf] at hvalues ⊢
  rcases Bool.eq_false_or_eq_true (a.values.head?.getD .null).isNullish with hnull | hnull <;>
    rcases Bool.eq_false_or_eq_true (b.values.head?.getD .null).isNullish with hnull' | hnull' <;>
    simp only [hnull, hnull', if_true, if_false, Bool.false_eq_true, lt_irrefl]
  · cases cmp.categoryOrderDescending <;> exact agrees_self _
  · cases cmp.categoryOrderDescending <;> exact agrees_self _
  · cases cmp.categoryOrderDescending <;> exact agrees_self _
  · exact hvalues

/-- A category that compares with itself has a value that does. -/
theorem comparable_of_compareAnyCategories
    (h : (cmp.compareAnyCategories env a a).isSome) : (categoryValueOf a).Comparable env := by
  rw [compareAnyCategories, compareSentinels_eq] at h
  rw [← categoryValueOf] at h
  generalize categoryValueOf a = v at h ⊢
  cases v with
  | undefined | null | lowSortVal | highSortVal => trivial
  | bool | number | string | date | array | object =>
    exact comparable_of_isSome (isSome_of_compareNext h)

/-! ## Documents -/

/-- What is left of the values of a key, and the key. -/
abbrev Rest := List AnyValue × AnySortKey

variable (env) in
/-- The order by the next columns. -/
def orderColumns (descending : List Bool) : ℕ → Rest → Rest → ℤ
  | 0, a, b => compareAnyOrigin env a.2 b.2
  | n + 1, a, b =>
    let value (rest : Rest) := rest.1.head?.getD .null
    if (value a).sentinelRank < (value b).sentinelRank then -1
    else if (value b).sentinelRank < (value a).sentinelRank then 1
    else if (value a).sentinelRank = 0 then
      if orderValues env (descending.head?.getD false) (value a) (value b) ≠ 0 then
        orderValues env (descending.head?.getD false) (value a) (value b)
      else orderColumns descending.tail n (a.1.tail, a.2) (b.1.tail, b.2)
    else 0

theorem orders_orderColumns (h : env.Collates) (descending : List Bool) (n : ℕ) :
    Orders (orderColumns env descending n) := by
  induction n generalizing descending with
  | zero => exact (orders_compareAnyOrigin h).comap Prod.snd
  | succ n ih =>
    refine orders_ranked (fun rest => (rest.1.head?.getD .null).sentinelRank)
      (fun rank (a b : Rest) => if rank = 0 then
        (if orderValues env (descending.head?.getD false) (a.1.head?.getD .null)
            (b.1.head?.getD .null) ≠ 0 then
          orderValues env (descending.head?.getD false) (a.1.head?.getD .null)
            (b.1.head?.getD .null)
        else orderColumns env descending.tail n (a.1.tail, a.2) (b.1.tail, b.2)) else 0)
      fun rank => ?_
    by_cases hrank : rank = 0
    · simp only [hrank, if_true]
      exact ((orders_orderValues h (descending.head?.getD false)).comap
        fun rest : Rest => rest.1.head?.getD .null).lex
          ((ih descending.tail).comap fun rest : Rest => (rest.1.tail, rest.2))
    · simp only [hrank, if_false]
      exact Orders.const

/-- The values of a key before the first sentinel. -/
def ComparableUntilSentinel (env : AnyRuntime) (values : List AnyValue) : Prop :=
  ∀ v ∈ values.takeWhile (·.sentinelRank = 0), v.Comparable env

theorem ComparableUntilSentinel.head
    (h : ComparableUntilSentinel env values) : (values.head?.getD .null).Comparable env := by
  cases values with
  | nil => trivial
  | cons v values =>
    by_cases hsentinel : v.sentinelRank = 0
    · refine h v ?_
      rw [List.takeWhile_cons, if_pos (decide_eq_true hsentinel)]
      exact List.mem_cons_self
    · change v.Comparable env
      cases v with
      | lowSortVal | highSortVal => trivial
      | _ => exact absurd rfl hsentinel

theorem ComparableUntilSentinel.tail (h : ComparableUntilSentinel env values)
    (hsentinel : (values.head?.getD .null).sentinelRank = 0) :
    ComparableUntilSentinel env values.tail := by
  cases values with
  | nil => exact h
  | cons v values =>
    have hv : v.sentinelRank = 0 := hsentinel
    intro w hw
    refine h w ?_
    rw [List.takeWhile_cons, if_pos (decide_eq_true hv)]
    exact List.mem_cons_of_mem v hw

theorem agrees_compareAnyColumns {o1 o2 : AnySortKey} (descending : List Bool) (n : ℕ)
    {values1 values2 : List AnyValue} (h1 : ComparableUntilSentinel env values1)
    (h2 : ComparableUntilSentinel env values2) :
    AgreesWith (compareAnyColumns env o1 o2 descending n values1 values2)
      (orderColumns env descending n (values1, o1) (values2, o2)) := by
  induction n generalizing descending values1 values2 with
  | zero => exact agrees_self _
  | succ n ih =>
    refine agrees_compareSentinels fun hsentinel hsentinel' => ?_
    exact (agrees_compareValues h1.head h2.head _).next
      fun _ => ih descending.tail (h1.tail hsentinel) (h2.tail hsentinel')

/-- The values that a key compares with its own. -/
theorem comparable_of_compareAnyColumns (h : env.Collates) {o : AnySortKey}
    {descending : List Bool} {n : ℕ} (hn : values.length ≤ n)
    (hsome : (compareAnyColumns env o o descending n values values).isSome) :
    ComparableUntilSentinel env values := by
  induction values generalizing n descending with
  | nil => nofun
  | cons v values ih =>
    obtain ⟨n, rfl⟩ : ∃ n', n = n' + 1 := ⟨n - 1, by simp only [List.length_cons] at hn; omega⟩
    by_cases hsentinel : v.sentinelRank = 0
    · have hnext : (compareNext (AnyValue.compareValues env v v (descending.head?.getD false))
          (compareAnyColumns env o o descending.tail n values values)).isSome := by
        rw [compareAnyColumns, List.head?_cons, Option.getD_some, compareSentinels_eq,
          if_pos ⟨hsentinel, hsentinel⟩] at hsome
        exact hsome
      have hv := comparable_of_isSome (isSome_of_compareNext hnext)
      rw [(agrees_compareValues hv hv _).eq_some_zero (orders_orderValues h _)] at hnext
      have htail := ih (Nat.le_of_succ_le_succ hn) hnext
      intro w hw
      rw [List.takeWhile_cons, if_pos (decide_eq_true hsentinel)] at hw
      rcases List.mem_cons.mp hw with rfl | hw
      · exact hv
      · exact htail w hw
    · intro w hw
      rw [List.takeWhile_cons, if_neg fun hdec => hsentinel (of_decide_eq_true hdec)] at hw
      exact nomatch hw

variable (env) in
/-- The order of the documents, by as many columns as one of the two has. -/
def orderDocuments (a b : AnySortKey) : ℤ :=
  orderColumns env cmp.docOrderPerColumnDescending (max a.values.length b.values.length)
    (a.values, a) (b.values, b)

/-- Columns that neither of the two has are tied. -/
theorem orderColumns_eq_of_le {descending : List Bool} {a b : Rest} {n m : ℕ}
    (hm : max a.1.length b.1.length ≤ m) (hmn : m ≤ n) :
    orderColumns env descending n a b = orderColumns env descending m a b := by
  induction m generalizing n descending a b with
  | zero =>
    obtain ⟨h₁, h₂⟩ := max_le_iff.mp hm
    obtain ⟨values1, o1⟩ := a
    obtain ⟨values2, o2⟩ := b
    obtain rfl := List.length_eq_zero_iff.mp (Nat.le_zero.mp h₁)
    obtain rfl := List.length_eq_zero_iff.mp (Nat.le_zero.mp h₂)
    clear hm hmn h₁ h₂
    induction n generalizing descending with
    | zero => rfl
    | succ n ih =>
      have htie : orderValues env (descending.head?.getD false) .null .null = 0 := by
        cases descending.head?.getD false <;> rfl
      have htail : orderColumns env descending.tail n ([], o1) ([], o2)
          = orderColumns env descending.tail 0 ([], o1) ([], o2) := ih
      refine Eq.trans ?_ htail
      simp only [orderColumns, List.head?_nil, Option.getD_none, sentinelRank, lt_irrefl, if_false,
        if_true, htie, ne_eq, not_true_eq_false, List.tail_nil]
  | succ m ih =>
    obtain ⟨n, rfl⟩ : ∃ n', n = n' + 1 := ⟨n - 1, by omega⟩
    have hm' : max a.1.tail.length b.1.tail.length ≤ m := by
      rw [List.length_tail, List.length_tail]
      omega
    have htail : orderColumns env descending.tail n (a.1.tail, a.2) (b.1.tail, b.2)
        = orderColumns env descending.tail m (a.1.tail, a.2) (b.1.tail, b.2) :=
      ih hm' (Nat.le_of_succ_le_succ hmn)
    rw [orderColumns, orderColumns, htail]

theorem orders_orderDocuments (h : env.Collates) : Orders (cmp.orderDocuments env) :=
  Orders.of_bounded (fun key : AnySortKey => key.values.length)
    (fun n => (orders_orderColumns h cmp.docOrderPerColumnDescending n).comap
      fun key : AnySortKey => (key.values, key))
    fun _ a b ha hb => (orderColumns_eq_of_le (a := (a.values, a)) (b := (b.values, b))
      (le_refl _) (max_le ha hb)).symm

/-! ## Sort keys -/

/-- **A key that compares with itself**: its value as a category, or those of its columns. -/
def KeyComparable (env : AnyRuntime) (key : AnySortKey) : Prop :=
  if key.isCategory then (categoryValueOf key).Comparable env
  else ComparableUntilSentinel env key.values

/-- What of the two kinds comes first. -/
def kindRank (key : AnySortKey) : ℤ :=
  if key.isCategory then (if cmp.categoriesOnTopOfDocuments then 0 else 2) else 1

variable (env) in
/-- **The order of all sort keys.** -/
def orderKeys (a b : AnySortKey) : ℤ :=
  if cmp.kindRank a < cmp.kindRank b then -1 else if cmp.kindRank b < cmp.kindRank a then 1
  else if cmp.kindRank a = 1 then cmp.orderDocuments env a b else cmp.orderCategories env a b

theorem orders_orderKeys (h : env.Collates) : Orders (cmp.orderKeys env) := by
  refine orders_ranked cmp.kindRank (fun rank a b =>
    if rank = 1 then cmp.orderDocuments env a b else cmp.orderCategories env a b) fun rank => ?_
  by_cases hrank : rank = 1
  · simp only [hrank, if_true]
    exact cmp.orders_orderDocuments h
  · simp only [hrank, if_false]
    exact cmp.orders_orderCategories h

theorem agrees_compareAny {b : AnySortKey} (ha : KeyComparable env a)
    (hb : KeyComparable env b) : AgreesWith (cmp.compareAny env a b) (cmp.orderKeys env a b) := by
  unfold KeyComparable at ha hb
  unfold compareAny orderKeys kindRank
  cases hcat : a.isCategory <;> cases hcat' : b.isCategory <;>
    simp only [hcat, hcat', if_true, if_false, Bool.false_eq_true] at ha hb ⊢
  · simp only [lt_irrefl, if_false]
    exact agrees_compareAnyColumns _ _ ha hb
  · cases cmp.categoriesOnTopOfDocuments <;> exact agrees_self _
  · cases cmp.categoriesOnTopOfDocuments <;> exact agrees_self _
  · simp only [lt_irrefl, if_false]
    cases cmp.categoriesOnTopOfDocuments <;> exact cmp.agrees_compareAnyCategories ha hb

theorem keyComparable_of_compareAny (h : env.Collates)
    (hsome : (cmp.compareAny env a a).isSome) : KeyComparable env a := by
  unfold compareAny at hsome
  unfold KeyComparable
  cases hcat : a.isCategory with
  | true =>
    rw [hcat] at hsome
    rw [if_pos rfl]
    exact cmp.comparable_of_compareAnyCategories hsome
  | false =>
    rw [hcat] at hsome
    rw [if_neg Bool.false_ne_true]
    exact comparable_of_compareAnyColumns h (by rw [max_self]) hsome

/-- **The comparator of sort keys is a total preorder** exactly on keys of values that compare with
themselves. -/
theorem totalPreorderOn_compareAny_iff (h : env.Collates) (S : Set AnySortKey) :
    TotalPreorderOn S (cmp.compareAny env) ↔ ∀ key ∈ S, KeyComparable env key := by
  constructor
  · intro horders key hkey
    exact cmp.keyComparable_of_compareAny h (horders.defined key hkey key hkey)
  · intro hcomparable
    exact .of_agrees (cmp.orders_orderKeys h) fun a ha b hb =>
      cmp.agrees_compareAny (hcomparable a ha) (hcomparable b hb)

end ViewEntrySortKeyComparator

/-! ## Rows -/

open AnyValue

/-- **A row that compares with itself.** -/
def CandidateRow.Comparable (env : AnyRuntime) (sortKeys : List Bool) (row : CandidateRow) :
    Prop :=
  ∀ v ∈ row.sortValues.take sortKeys.length, v.Comparable env

variable (env) in
/-- The order by the next sort keys. -/
def orderRows : List Bool → List AnyValue × JSString → List AnyValue × JSString → ℤ
  | [], left, right => env.localeCompare left.2 right.2
  | descending :: sortKeys, left, right =>
    let value (rest : List AnyValue × JSString) := rest.1.head?.getD .undefined
    if orderValues env descending (value left) (value right) ≠ 0 then
      orderValues env descending (value left) (value right)
    else orderRows sortKeys (left.1.tail, left.2) (right.1.tail, right.2)

theorem orders_orderRows (h : env.Collates) (sortKeys : List Bool) :
    Orders (orderRows env sortKeys) := by
  induction sortKeys with
  | nil => exact h.localeCompare.comap Prod.snd
  | cons descending sortKeys ih =>
    exact ((orders_orderValues h descending).comap
      fun rest : List AnyValue × JSString => rest.1.head?.getD .undefined).lex
        (ih.comap fun rest : List AnyValue × JSString => (rest.1.tail, rest.2))

/-- The first of the sort values, or nothing. -/
theorem comparable_head_of_take {n : ℕ} (h : ∀ v ∈ values.take (n + 1), v.Comparable env) :
    (values.head?.getD .undefined).Comparable env
      ∧ ∀ v ∈ values.tail.take n, v.Comparable env := by
  cases values with
  | nil => exact ⟨trivial, fun v hv => absurd hv (by rw [List.tail_nil, List.take_nil]; simp)⟩
  | cons v values =>
    exact ⟨h v List.mem_cons_self, fun w hw => h w (List.mem_cons_of_mem v hw)⟩

theorem agrees_compareRows (left right : CandidateRow) {sortKeys : List Bool}
    {leftValues rightValues : List AnyValue}
    (hleft : ∀ v ∈ leftValues.take sortKeys.length, v.Comparable env)
    (hright : ∀ v ∈ rightValues.take sortKeys.length, v.Comparable env) :
    AgreesWith (compareRows env left right sortKeys leftValues rightValues)
      (orderRows env sortKeys (leftValues, left.docId) (rightValues, right.docId)) := by
  induction sortKeys generalizing leftValues rightValues with
  | nil => exact agrees_self _
  | cons descending sortKeys ih =>
    obtain ⟨hhead, htail⟩ := comparable_head_of_take hleft
    obtain ⟨hhead', htail'⟩ := comparable_head_of_take hright
    exact (agrees_compareValues hhead hhead' descending).next fun _ => ih htail htail'

theorem comparable_of_compareRows (h : env.Collates) {row : CandidateRow} {sortKeys : List Bool}
    {values : List AnyValue} (hsome : (compareRows env row row sortKeys values values).isSome) :
    ∀ v ∈ values.take sortKeys.length, v.Comparable env := by
  induction sortKeys generalizing values with
  | nil => nofun
  | cons descending sortKeys ih =>
    cases values with
    | nil => nofun
    | cons v values =>
      rw [compareRows, List.head?_cons, Option.getD_some] at hsome
      have hv := comparable_of_isSome (isSome_of_compareNext hsome)
      rw [(agrees_compareValues hv hv descending).eq_some_zero (orders_orderValues h _)] at hsome
      intro w hw
      rcases List.mem_cons.mp hw with rfl | hw
      · exact hv
      · exact ih hsome w hw

/-- **The comparator of a query's sort is a total preorder** exactly on rows of values that compare
with themselves. -/
theorem totalPreorderOn_compareCandidates_iff (h : env.Collates) (sortKeys : List Bool)
    (S : Set CandidateRow) : TotalPreorderOn S (compareCandidates env sortKeys) ↔
      ∀ row ∈ S, row.Comparable env sortKeys := by
  constructor
  · intro horders row hrow
    exact comparable_of_compareRows h (horders.defined row hrow row hrow)
  · intro hcomparable
    exact .of_agrees ((orders_orderRows h sortKeys).comap
      fun row : CandidateRow => (row.sortValues, row.docId)) fun left hleft right hright =>
        agrees_compareRows left right (hcomparable left hleft) (hcomparable right hright)

/-- **Sorting has one consistent order** exactly on values that compare with themselves. -/
theorem consistent_iff (h : env.Collates) (descending : Bool) (cmp : ViewEntrySortKeyComparator)
    (sortKeys : List Bool) (values : Set AnyValue) (keys : Set AnySortKey)
    (rows : Set CandidateRow) :
    (TotalPreorderOn values (fun a b => AnyValue.compareValues env a b descending) ↔
        ∀ v ∈ values, v.Comparable env)
      ∧ (TotalPreorderOn keys (cmp.compareAny env) ↔
        ∀ key ∈ keys, ViewEntrySortKeyComparator.KeyComparable env key)
      ∧ (TotalPreorderOn rows (compareCandidates env sortKeys) ↔
        ∀ row ∈ rows, row.Comparable env sortKeys) :=
  ⟨totalPreorderOn_compareValues_iff h descending values, cmp.totalPreorderOn_compareAny_iff h keys,
    totalPreorderOn_compareCandidates_iff h sortKeys rows⟩

/-! ## A runtime that compares code units -/

def compareUnits (a b : JSString) : ℤ := if a < b then -1 else if b < a then 1 else 0

theorem orders_compareUnits : Orders compareUnits := by
  refine ⟨fun a b => ?_, fun a b c => ?_⟩
  · rcases lt_trichotomy a b with h | rfl | h
    · simp [compareUnits, h, h.not_gt]
    · simp [compareUnits]
    · simp [compareUnits, h, h.not_gt]
  · have hle (a b : JSString) : compareUnits a b ≤ 0 ↔ a ≤ b := by
      rcases lt_trichotomy a b with h | rfl | h
      · simp [compareUnits, h, h.le]
      · simp [compareUnits]
      · simp [compareUnits, h, h.not_gt, h.not_ge]
    rw [hle, hle, hle]
    exact le_trans

/-- `String` of the values without parts. -/
def textOfBool : AnyValue → Option JSString
  | .bool true => some ("true" : JSString)
  | .bool false => some ("false" : JSString)
  | .string s => some s
  | _ => none

/-- A runtime that compares code units. -/
def unitsRuntime : AnyRuntime where
  toRuntime := { plainRuntime with
    baseSensitivityCollator := compareUnits
    defaultCollator := compareUnits
    localeCompare := compareUnits }
  textOf := textOfBool

theorem collates_unitsRuntime : unitsRuntime.Collates :=
  ⟨orders_compareUnits, orders_compareUnits, orders_compareUnits⟩

/-- Numbers, booleans and sentinels, of which one is infinite. -/
theorem consistent_numbers :
    TotalPreorderOn {.number (.finite 2), .bool true, .highSortVal}
        (fun a b => AnyValue.compareValues unitsRuntime a b true)
      ∧ ¬TotalPreorderOn {.number (.finite 2), .number .positiveInfinity}
        (fun a b => AnyValue.compareValues unitsRuntime a b true) := by
  have hiff (values : Set AnyValue) :=
    (consistent_iff collates_unitsRuntime true ⟨true, false, []⟩ [] values ∅ ∅).1
  rw [hiff, hiff]
  constructor
  · rintro v (rfl | rfl | rfl)
    · exact ⟨2, rfl⟩
    · exact rfl
    · exact trivial
  · intro hcomparable
    obtain ⟨q, hq⟩ := hcomparable (.number .positiveInfinity) (.inr rfl)
    cases hq

/-- **Numbers around `NaN`** are in no order, also where `NaN` is read as a tie. -/
theorem not_consistent_nan : unitsRuntime.Collates
    ∧ ¬OrdersOn {.number (.finite 1), .number .nan, .number (.finite 2)}
      fun a b => (AnyValue.compareValues unitsRuntime a b false).getD 0 := by
  refine ⟨collates_unitsRuntime, fun horders => ?_⟩
  have hle := horders.trans (.number (.finite 2)) (.inr (.inr rfl)) (.number .nan) (.inr (.inl rfl))
    (.number (.finite 1)) (.inl rfl) (by decide) (by decide)
  exact absurd hle (by decide +kernel)

end MindooDB
