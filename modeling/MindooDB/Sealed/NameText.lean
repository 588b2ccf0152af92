import MindooDB.Sealed.UserNames

/-!
# Sealed/NameText — the parts of a name as text

A text is cut at its slashes into trimmed parts that are not empty, and a part at its first equals
sign into a type and a value.  Parts that are put together are found again
(`splitNameParts_join`, `matchCanonicalPart_append`).
-/

namespace JSString

variable {s t : JSString} {parts : List JSString}

def slash : Fin 65536 := Fin.ofNat _ '/'.toNat

theorem isEmpty_eq_false_iff : s.isEmpty = false ↔ s.units ≠ [] := by
  rw [isEmpty, List.isEmpty_eq_false_iff]

/-! ## Trimming -/

theorem units_trim (s : JSString) :
    s.trim.units = (s.units.dropWhile isSpace).rdropWhile isSpace := rfl

/-- **A text is trimmed** when it neither starts nor ends with a space. -/
theorem trim_eq_self_iff : s.trim = s ↔ ∀ h : s.units ≠ [],
    isSpace (s.units.head h) = false ∧ isSpace (s.units.getLast h) = false := by
  rw [← units_injective.eq_iff, units_trim]
  constructor
  · intro heq hne
    have hdrop : s.units.dropWhile isSpace = s.units := by
      refine (List.dropWhile_suffix _).eq_of_length_le ?_
      conv_lhs => rw [← heq]
      exact (List.rdropWhile_prefix _ _).length_le
    rw [hdrop] at heq
    refine ⟨?_, Bool.eq_false_iff.mpr (List.rdropWhile_eq_self_iff.mp heq hne)⟩
    have hfirst := List.dropWhile_eq_self_iff.mp hdrop (List.length_pos_iff.mpr hne)
    rw [List.head_eq_getElem]
    exact Bool.eq_false_iff.mpr hfirst
  · intro h
    have hdrop : s.units.dropWhile isSpace = s.units := List.dropWhile_eq_self_iff.mpr fun hl => by
      have hfirst := (h (List.length_pos_iff.mp hl)).1
      rw [List.head_eq_getElem] at hfirst
      exact Bool.eq_false_iff.mp hfirst
    rw [hdrop]
    exact List.rdropWhile_eq_self_iff.mpr fun hne => Bool.eq_false_iff.mp (h hne).2

theorem trim_trim (s : JSString) : s.trim.trim = s.trim := by
  rw [trim_eq_self_iff]
  intro hne
  have hne' : s.units.dropWhile isSpace ≠ [] := fun hnil => hne (by rw [units_trim, hnil]; rfl)
  refine ⟨?_, Bool.eq_false_iff.mpr (List.rdropWhile_last_not _ _ hne)⟩
  have hhead : s.trim.units.head hne = (s.units.dropWhile isSpace).head hne' :=
    List.IsPrefix.head (List.rdropWhile_prefix _ _) hne
  rw [hhead]
  exact List.head_dropWhile_not _ hne'

theorem units_trim_sublist (s : JSString) : s.trim.units.Sublist s.units :=
  (List.rdropWhile_prefix _ _).sublist.trans (List.dropWhile_sublist _)

/-- A text that starts and ends with trimmed ones is trimmed. -/
theorem trim_append (hs : s.trim = s) (hs' : s.isEmpty = false) (ht : t.trim = t)
    (ht' : t.isEmpty = false) (middle : JSString) : (s ++ middle ++ t).trim = s ++ middle ++ t := by
  rw [isEmpty_eq_false_iff] at hs' ht'
  rw [trim_eq_self_iff]
  intro hne
  simp only [units_append] at hne ⊢
  constructor
  · rw [List.head_append_of_ne_nil (by simp [hs']), List.head_append_of_ne_nil hs']
    exact (trim_eq_self_iff.mp hs hs').1
  · rw [List.getLast_append_of_ne_nil _ ht']
    exact (trim_eq_self_iff.mp ht ht').2

/-! ## Cutting at slashes -/

theorem join_cons_cons (part part' : JSString) (parts : List JSString) :
    join "/" (part :: part' :: parts) = part ++ "/" ++ join "/" (part' :: parts) := by
  refine units_injective ?_
  simp [join, units_append, List.append_assoc]

theorem join_singleton (part : JSString) : join "/" [part] = part := by
  refine units_injective ?_
  simp [join]

theorem split_join (hne : parts ≠ []) (hslash : ∀ part ∈ parts, slash ∉ part.units) :
    (join "/" parts).split '/' = parts := by
  induction parts with
  | nil => exact absurd rfl hne
  | cons part parts ih =>
    have hpart : slash ∉ part.units := hslash part List.mem_cons_self
    cases parts with
    | nil =>
      rw [join_singleton]
      exact congrArg (List.map mk) (List.splitOn_eq_singleton hpart)
    | cons part' parts =>
      have hrest := ih (by simp) fun p hp => hslash p (List.mem_cons_of_mem _ hp)
      have hunits : (part ++ "/" ++ join "/" (part' :: parts)).units
          = part.units ++ slash :: (join "/" (part' :: parts)).units := by
        simp only [units_append, List.append_assoc]
        rfl
      rw [join_cons_cons, split, hunits]
      exact (congrArg (List.map mk) (List.splitOn_append_cons_self_of_not_mem hpart _)).trans
        (congrArg (part :: ·) hrest)

theorem notMem_of_mem_splitOn {l piece : List (Fin 65536)} (h : piece ∈ l.splitOn slash) :
    slash ∉ piece := by
  induction l generalizing piece with
  | nil =>
    rw [List.splitOn_nil, List.mem_singleton] at h
    exact h ▸ List.not_mem_nil
  | cons a l ih =>
    rw [List.splitOn_cons_eq_if_modifyHead] at h
    split at h
    · rcases List.mem_cons.mp h with rfl | h
      · exact List.not_mem_nil
      · exact ih h
    · rename_i ha
      cases hrest : l.splitOn slash with
      | nil => exact absurd hrest (List.splitOn_ne_nil _ _)
      | cons first rest =>
        rw [hrest, List.modifyHead_cons] at h
        rcases List.mem_cons.mp h with rfl | h
        · rw [List.mem_cons, not_or]
          refine ⟨fun heq => ha (by simp [heq]), ih (hrest ▸ List.mem_cons_self)⟩
        · exact ih (hrest ▸ List.mem_cons_of_mem _ h)

theorem notMem_of_mem_split {part : JSString} (h : part ∈ s.split '/') : slash ∉ part.units := by
  obtain ⟨piece, hpiece, rfl⟩ := List.mem_map.mp h
  exact notMem_of_mem_splitOn hpiece

end JSString

namespace MindooDB.Sealed

open UnicodeTables JSString

variable {part value : JSString} {parts : List JSString} {rdn : JSString × JSString}
  {rdns : List (JSString × JSString)}

/-! ## The parts of a path -/

/-- **A part of a path** is trimmed and not empty, and no slash stands in it. -/
structure IsPart (part : JSString) : Prop where
  trim_eq : part.trim = part
  nonempty : part.isEmpty = false
  noSlash : slash ∉ part.units

theorem isPart_of_mem_splitNameParts (h : part ∈ splitNameParts value) : IsPart part := by
  obtain ⟨hmem, hne⟩ := List.mem_filter.mp h
  obtain ⟨piece, hpiece, rfl⟩ := List.mem_map.mp hmem
  exact ⟨trim_trim piece, (Bool.not_eq_eq_eq_not.mp hne),
    fun hslash => notMem_of_mem_split hpiece ((units_trim_sublist piece).mem hslash)⟩

/-- **Parts that are put together are found again.** -/
theorem splitNameParts_join (h : ∀ part ∈ parts, IsPart part) :
    splitNameParts (join "/" parts) = parts := by
  cases parts with
  | nil => rfl
  | cons first rest =>
    rw [splitNameParts, split_join (List.cons_ne_nil _ _) fun part hp => (h part hp).noSlash,
      List.map_congr_left fun part hp => (h part hp).trim_eq, List.map_id',
      List.filter_eq_self.mpr fun part hp => by rw [(h part hp).nonempty]; rfl]

theorem isEmpty_join (h : ∀ part ∈ parts, IsPart part) (hne : parts ≠ []) :
    (join "/" parts).isEmpty = false := by
  obtain ⟨first, rest, rfl⟩ := List.exists_cons_of_ne_nil hne
  rw [isEmpty_eq_false_iff]
  exact List.append_ne_nil_of_left_ne_nil
    (isEmpty_eq_false_iff.mp (h first List.mem_cons_self).nonempty) _

theorem trim_join (h : ∀ part ∈ parts, IsPart part) : (join "/" parts).trim = join "/" parts := by
  induction parts with
  | nil => rfl
  | cons part parts ih =>
    have hpart := h part List.mem_cons_self
    have hparts : ∀ p ∈ parts, IsPart p := fun p hp => h p (List.mem_cons_of_mem _ hp)
    cases parts with
    | nil =>
      rw [join_singleton]
      exact hpart.trim_eq
    | cons part' parts =>
      rw [join_cons_cons]
      exact trim_append hpart.trim_eq hpart.nonempty (ih hparts)
        (isEmpty_join hparts (List.cons_ne_nil _ _)) _

/-! ## The type and the value of a part -/

def equalsSign : Fin 65536 := Fin.ofNat _ '='.toNat

/-- **A type and a value** that a part can be made of. -/
structure IsRdn (rdn : JSString × JSString) : Prop where
  type : IsPart rdn.1
  value : IsPart rdn.2
  noEquals : equalsSign ∉ rdn.1.units
  oneLine : ∀ unit ∈ rdn.2.units, isLineTerminator unit = false

def partOf (rdn : JSString × JSString) : JSString := rdn.1 ++ "=" ++ rdn.2

theorem units_partOf (rdn : JSString × JSString) :
    (partOf rdn).units = rdn.1.units ++ equalsSign :: rdn.2.units := by
  rw [partOf, units_append, units_append, List.append_assoc]
  rfl

/-- A part without an equals sign, or its texts around the first one. -/
theorem exists_append_of_part (part : JSString) : equalsSign ∉ part.units ∨
    ∃ pre post, part = pre ++ "=" ++ post ∧ equalsSign ∉ pre.units := by
  by_cases hmem : equalsSign ∈ part.units
  · obtain ⟨pre, post, hunits, hpre⟩ := List.eq_append_cons_of_mem hmem
    refine .inr ⟨⟨pre⟩, ⟨post⟩, units_injective ?_, hpre⟩
    rw [hunits, units_append, units_append, List.append_assoc]
    rfl
  · exact .inl hmem

theorem matchCanonicalPart_of_notMem (h : equalsSign ∉ part.units) :
    matchCanonicalPart part = none := by
  have hnone : part.units.findIdx? (· = 0x3D) = none :=
    List.findIdx?_eq_none_iff.mpr fun unit hunit =>
      decide_eq_false (ne_of_mem_of_not_mem hunit h)
  rw [matchCanonicalPart, hnone]

/-- **A part is read at its first equals sign.** -/
theorem matchCanonicalPart_append {pre : JSString} (h : equalsSign ∉ pre.units) (post : JSString) :
    matchCanonicalPart (pre ++ "=" ++ post) =
      if pre.isEmpty || post.trim.units.any isLineTerminator then none
      else some (pre.trim, post.trim) := by
  have hunits : (pre ++ "=" ++ post).units = pre.units ++ equalsSign :: post.units :=
    units_partOf (pre, post)
  have hnone : pre.units.findIdx? (· = 0x3D) = none :=
    List.findIdx?_eq_none_iff.mpr fun unit hunit =>
      decide_eq_false (ne_of_mem_of_not_mem hunit h)
  have hsome : (equalsSign :: post.units).findIdx? (· = 0x3D) = some 0 := by
    rw [List.findIdx?_cons]
    rfl
  have hfind : (pre ++ "=" ++ post).units.findIdx? (· = 0x3D) = some pre.units.length := by
    rw [hunits, List.findIdx?_append, hnone, hsome, Option.none_or, Option.map_some, Nat.zero_add]
  cases hempty : pre.isEmpty with
  | true => rw [matchCanonicalPart, hfind, List.isEmpty_iff.mp hempty]; rfl
  | false =>
    obtain ⟨n, hn⟩ : ∃ n, pre.units.length = n + 1 :=
      Nat.exists_eq_succ_of_ne_zero
        (mt List.length_eq_zero_iff.mp (isEmpty_eq_false_iff.mp hempty))
    have hdrop : (pre ++ "=" ++ post).drop (n + 1 + 1) = post := by
      refine units_injective ?_
      rw [drop, hunits, ← hn, ← List.drop_drop, List.drop_left]
      rfl
    have htake : (pre ++ "=" ++ post).take (n + 1) = pre := by
      refine units_injective ?_
      rw [take, hunits, ← hn, List.take_left]
    rw [matchCanonicalPart, hfind, hn]
    simp only [hdrop, htake, Bool.false_or]

theorem matchCanonicalPart_eq_some_iff : matchCanonicalPart part = some rdn ↔
    ∃ pre post, part = pre ++ "=" ++ post ∧ equalsSign ∉ pre.units ∧ pre.isEmpty = false ∧
      post.trim.units.any isLineTerminator = false ∧ (pre.trim, post.trim) = rdn := by
  constructor
  · intro h
    obtain hnone | ⟨pre, post, rfl, hpre⟩ := exists_append_of_part part
    · rw [matchCanonicalPart_of_notMem hnone] at h
      cases h
    · rw [matchCanonicalPart_append hpre] at h
      split at h
      · cases h
      · rename_i hread
        rw [Bool.or_eq_true, not_or, Bool.not_eq_true, Bool.not_eq_true] at hread
        exact ⟨pre, post, rfl, hpre, hread.1, hread.2, Option.some_injective _ h⟩
  · rintro ⟨pre, post, rfl, hpre, hempty, hline, rfl⟩
    rw [matchCanonicalPart_append hpre, hempty, hline]
    rfl

/-- **A type and a value that are put together are found again**, unless the value has two
lines. -/
theorem matchCanonicalPart_partOf (htype : IsPart rdn.1) (hvalue : IsPart rdn.2)
    (hequals : equalsSign ∉ rdn.1.units) :
    matchCanonicalPart (partOf rdn) =
      if rdn.2.units.any isLineTerminator then none else some rdn := by
  rw [partOf, matchCanonicalPart_append hequals, htype.trim_eq, hvalue.trim_eq, htype.nonempty,
    Bool.false_or]

theorem IsRdn.matchCanonicalPart (h : IsRdn rdn) : matchCanonicalPart (partOf rdn) = some rdn := by
  rw [matchCanonicalPart_partOf h.type h.value h.noEquals, if_neg]
  rw [Bool.not_eq_true, List.any_eq_false]
  exact fun unit hunit => Bool.eq_false_iff.mp (h.oneLine unit hunit)

theorem isPart_partOf (htype : IsPart rdn.1) (hvalue : IsPart rdn.2) : IsPart (partOf rdn) where
  trim_eq := trim_append htype.trim_eq htype.nonempty hvalue.trim_eq hvalue.nonempty _
  nonempty := by
    rw [isEmpty_eq_false_iff, units_partOf]
    exact List.append_ne_nil_of_right_ne_nil _ (List.cons_ne_nil _ _)
  noSlash := by
    rw [units_partOf, List.mem_append, List.mem_cons]
    rintro (hmem | heq | hmem)
    · exact htype.noSlash hmem
    · exact nomatch heq
    · exact hvalue.noSlash hmem

/-- A part starts with a letter of its type. -/
theorem isEmpty_trim_of_part {pre post : JSString} (hpart : IsPart (pre ++ "=" ++ post))
    (hne : pre.isEmpty = false) : pre.trim.isEmpty = false := by
  obtain ⟨first, rest, hunits⟩ := List.exists_cons_of_ne_nil (isEmpty_eq_false_iff.mp hne)
  have hhead := (trim_eq_self_iff.mp hpart.trim_eq (isEmpty_eq_false_iff.mp hpart.nonempty)).1
  simp only [units_append, hunits, List.cons_append, List.head_cons] at hhead
  rw [isEmpty_eq_false_iff, units_trim, hunits,
    List.dropWhile_cons_of_neg (by rw [hhead]; exact Bool.false_ne_true)]
  intro hnil
  have hspace := List.rdropWhile_eq_nil_iff.mp hnil first List.mem_cons_self
  rw [hhead] at hspace
  cases hspace

/-- What is found in a part can be put together. -/
theorem isRdn_of_matchCanonicalPart (hpart : IsPart part) (h : matchCanonicalPart part = some rdn)
    (hvalue : rdn.2.isEmpty = false) : IsRdn rdn := by
  obtain ⟨pre, post, rfl, hequals, hne, hline, rfl⟩ := matchCanonicalPart_eq_some_iff.mp h
  have hslash := hpart.noSlash
  rw [units_append, units_append, List.mem_append, List.mem_append, not_or, not_or] at hslash
  refine ⟨⟨trim_trim _, isEmpty_trim_of_part hpart hne, fun hs => ?_⟩,
    ⟨trim_trim _, hvalue, fun hs => ?_⟩, fun hmem => ?_, fun unit hunit => ?_⟩
  · exact hslash.1.1 ((units_trim_sublist pre).mem hs)
  · exact hslash.2 ((units_trim_sublist post).mem hs)
  · exact hequals ((units_trim_sublist pre).mem hmem)
  · exact Bool.eq_false_iff.mpr (List.any_eq_false.mp hline unit hunit)

/-! ## Names that are put together -/

section

variable (h : ∀ rdn ∈ rdns, IsRdn rdn)

include h

theorem isPart_of_rdns : ∀ part ∈ rdns.map partOf, IsPart part := by
  intro part hpart
  obtain ⟨rdn, hrdn, rfl⟩ := List.mem_map.mp hpart
  exact isPart_partOf (h rdn hrdn).type (h rdn hrdn).value

theorem splitNameParts_joinRdns :
    splitNameParts (joinRdns rdns) = rdns.map partOf :=
  splitNameParts_join (isPart_of_rdns h)

theorem trim_joinRdns :
    (joinRdns rdns).trim = joinRdns rdns :=
  trim_join (isPart_of_rdns h)

/-- **A name determines the types and values** it was put together from. -/
theorem joinRdns_injective {rdns' : List (JSString × JSString)} (h' : ∀ rdn ∈ rdns', IsRdn rdn)
    (heq : joinRdns rdns = joinRdns rdns') : rdns = rdns' := by
  have hparts : rdns.map partOf = rdns'.map partOf := by
    rw [← splitNameParts_joinRdns h, heq, splitNameParts_joinRdns h']
  have hread : ∀ {l : List (JSString × JSString)}, (∀ rdn ∈ l, IsRdn rdn) →
      (l.map partOf).map matchCanonicalPart = l.map some := by
    intro l hl
    rw [List.map_map]
    exact List.map_congr_left fun rdn hrdn => (hl rdn hrdn).matchCanonicalPart
  exact List.map_injective_iff.mpr (Option.some_injective _) (by rw [← hread h, hparts, hread h'])

/-- A name with its types needs no expansion. -/
theorem expandAbbreviatedName_joinRdns (hne : rdns ≠ []) :
    expandAbbreviatedName (joinRdns rdns) = joinRdns rdns := by
  have hcanonical : isCanonicalName (joinRdns rdns) = true := by
    rw [isCanonicalName, trim_joinRdns h, splitNameParts_joinRdns h]
    simp only [Bool.and_eq_true, List.all_map, List.all_eq_true, Function.comp_apply]
    refine ⟨by simpa using hne, fun rdn hrdn => ?_⟩
    rw [(h rdn hrdn).matchCanonicalPart, Option.any_some, (h rdn hrdn).type.nonempty,
      (h rdn hrdn).value.nonempty]
    rfl
  rw [expandAbbreviatedName, trim_joinRdns h, hcanonical]
  rfl

end

end MindooDB.Sealed
