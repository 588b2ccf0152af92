import MindooDB.Lib.JSStringParts
import MindooDB.Sealed.NameText
import MindooDB.Sealed.Plan

/-!
# Sealed/SameName — when two names are of one person

The key of a person expands a name and the comparison of two names abbreviates it, unless a part of
it has no type: then the text is compared as it stands, with the types it spells and its spaces.  The
two notions agree on names with the same values if what is written around the values differs exactly
where the types do.
-/

namespace MindooDB.Sealed

open JSString List

/-! ## The Unicode tables -/

def IsMark (unit : Fin 65536) : Prop :=
  unit = slash ∨ unit = equalsSign ∨ isLineTerminator unit = true

/-- **A mapping of letters** leaves the marks and the spaces of a name alone. -/
structure KeepsParts (f : JSString → JSString) : Prop where
  isEmpty : ∀ s, (f s).isEmpty = s.isEmpty
  trim : ∀ s, s.trim = s → (f s).trim = f s
  mark : ∀ s, ∀ unit ∈ (f s).units, IsMark unit → unit ∈ s.units

/-- What the Unicode tables promise. -/
structure UnicodeTables.Lawful (unicode : UnicodeTables) : Prop where
  lower_lower : ∀ s, unicode.toLowerCase (unicode.toLowerCase s) = unicode.toLowerCase s
  upper_upper : ∀ s, unicode.toUpperCase (unicode.toUpperCase s) = unicode.toUpperCase s
  keeps_lower : KeepsParts unicode.toLowerCase
  keeps_upper : KeepsParts unicode.toUpperCase
  lower_slash : ∀ s t,
    unicode.toLowerCase (s ++ "/" ++ t) = unicode.toLowerCase s ++ "/" ++ unicode.toLowerCase t
  lower_equals : ∀ s t,
    unicode.toLowerCase (s ++ "=" ++ t) = unicode.toLowerCase s ++ "=" ++ unicode.toLowerCase t
  lower_trim : ∀ s, (unicode.toLowerCase s).trim = unicode.toLowerCase s.trim
  lower_of_upper_o : ∀ s, unicode.toUpperCase s = "O" → unicode.toLowerCase s = "o"
  trim_normalize : ∀ s, (unicode.normalizeNFKC s.trim).trim = (unicode.normalizeNFKC s).trim
  -- a slash composes with nothing, and an equals sign with nothing before it
  normalize_slash : ∀ s t,
    unicode.normalizeNFKC (s ++ "/" ++ t) =
      unicode.normalizeNFKC s ++ "/" ++ unicode.normalizeNFKC t
  normalize_equals : ∀ s t,
    unicode.normalizeNFKC (s ++ "=" ++ t) =
      unicode.normalizeNFKC s ++ unicode.normalizeNFKC ("=" ++ t)

variable {f g : JSString → JSString} {part : JSString} {parts : List JSString}
  {rdn : JSString × JSString} {rdns : List (JSString × JSString)}

theorem IsPart.map (hf : KeepsParts f) (h : IsPart part) : IsPart (f part) where
  trim_eq := hf.trim part h.trim_eq
  nonempty := (hf.isEmpty part).trans h.nonempty
  noSlash hs := h.noSlash (hf.mark part _ hs (.inl rfl))

theorem IsRdn.map (hf : KeepsParts f) (hg : KeepsParts g) (h : IsRdn rdn) :
    IsRdn (f rdn.1, g rdn.2) where
  type := h.type.map hf
  value := h.value.map hg
  noEquals hs := h.noEquals (hf.mark rdn.1 _ hs (.inr (.inl rfl)))
  oneLine unit hunit := by
    by_contra hline
    rw [Bool.not_eq_false] at hline
    have hmem := hg.mark rdn.2 unit hunit (.inr (.inr hline))
    rw [h.oneLine unit hmem] at hline
    cases hline

theorem isRdn_map (hf : KeepsParts f) (hg : KeepsParts g) (h : ∀ rdn ∈ rdns, IsRdn rdn) :
    ∀ rdn ∈ rdns.map (Prod.map f g), IsRdn rdn := by
  intro rdn hrdn
  obtain ⟨rdn, hmem, rfl⟩ := mem_map.mp hrdn
  exact (h rdn hmem).map hf hg

namespace UnicodeTables

variable (unicode : UnicodeTables)

/-! ## What a name says -/

/-- The types and values of a name as they are spelled. -/
def rdnsOf (username : JSString) : List (JSString × JSString) :=
  (splitNameParts (expandAbbreviatedName (unicode.normalizeNFKC username.trim))).filterMap
    matchCanonicalPart

/-- Every part of the name has a type and a value. -/
def WellTyped (username : JSString) : Prop :=
  ∀ part ∈ splitNameParts (expandAbbreviatedName (unicode.normalizeNFKC username.trim)),
    ∃ rdn, matchCanonicalPart part = some rdn ∧ rdn.1.isEmpty = false ∧ rdn.2.isEmpty = false

variable {unicode} {username key : JSString} {orgType : JSString}
  {spellType spellValue : JSString → JSString}

theorem mapM_except_eq_ok {α β ε : Type} {f : α → Except ε β} {l : List α} {r : List β} :
    l.mapM f = .ok r ↔ List.Forall₂ (fun a b => f a = .ok b) l r := by
  induction l generalizing r with
  | nil => simp [pure, Except.pure, eq_comm]
  | cons a l ih =>
    rw [mapM_cons, forall₂_cons_left_iff]
    constructor
    · intro h
      cases ha : f a with
      | error e => rw [ha] at h; cases h
      | ok b =>
        cases hl : l.mapM f with
        | error e => rw [ha, hl] at h; cases h
        | ok bs =>
          rw [ha, hl] at h
          cases h
          exact ⟨b, bs, rfl, ih.mp hl, rfl⟩
    · rintro ⟨b, bs, ha, hl, rfl⟩
      rw [ha, ih.mpr hl]
      rfl

/-- The parse of one part. -/
def parsePart (username : JSString) (spellType spellValue : JSString → JSString)
    (part : JSString) : Except JSString (JSString × JSString) :=
  match matchCanonicalPart part with
  | none => throw (missingOrganization username)
  | some (type, value) =>
    if type.isEmpty || value.isEmpty then throw (missingOrganization username)
    else pure (spellType type, spellValue value)

theorem parsePart_eq_ok {part : JSString} {rdn : JSString × JSString} :
    parsePart username spellType spellValue part = .ok rdn ↔
      ∃ found, matchCanonicalPart part = some found ∧ found.1.isEmpty = false ∧
        found.2.isEmpty = false ∧ Prod.map spellType spellValue found = rdn := by
  rw [parsePart]
  cases matchCanonicalPart part with
  | none =>
    constructor
    · rintro ⟨⟩
    · rintro ⟨found, ⟨⟩, -⟩
  | some found =>
    obtain ⟨type, value⟩ := found
    dsimp only
    constructor
    · intro h
      split at h
      · cases h
      · rename_i hempty
        rw [Bool.or_eq_true, not_or, Bool.not_eq_true, Bool.not_eq_true] at hempty
        cases h
        exact ⟨_, rfl, hempty.1, hempty.2, rfl⟩
    · rintro ⟨found, heq, htype, hvalue, rfl⟩
      cases heq
      rw [if_neg (by rw [htype, hvalue]; decide)]
      rfl

/-- The parse of all parts. -/
theorem mapM_parsePart_eq_ok {parts : List JSString} :
    parts.mapM (parsePart username spellType spellValue) = .ok rdns ↔
      (∀ part ∈ parts, ∃ rdn, matchCanonicalPart part = some rdn ∧ rdn.1.isEmpty = false ∧
        rdn.2.isEmpty = false) ∧
      (parts.filterMap matchCanonicalPart).map (Prod.map spellType spellValue) = rdns := by
  rw [mapM_except_eq_ok]
  induction parts generalizing rdns with
  | nil => simp
  | cons part parts ih =>
    rw [forall₂_cons_left_iff, forall_mem_cons]
    constructor
    · rintro ⟨rdn, rest, hpart, hrest, rfl⟩
      obtain ⟨found, hfound, htype, hvalue, rfl⟩ := parsePart_eq_ok.mp hpart
      obtain ⟨hparts, rfl⟩ := ih.mp hrest
      refine ⟨⟨⟨found, hfound, htype, hvalue⟩, hparts⟩, ?_⟩
      rw [filterMap_cons_some hfound, map_cons]
    · rintro ⟨⟨⟨found, hfound, htype, hvalue⟩, hparts⟩, rfl⟩
      rw [filterMap_cons_some hfound, map_cons]
      exact ⟨_, _, parsePart_eq_ok.mpr ⟨found, hfound, htype, hvalue, rfl⟩,
        ih.mpr ⟨hparts, rfl⟩, rfl⟩

theorem parseExpandedRdns_eq :
    unicode.parseExpandedRdns username orgType spellType spellValue =
      if (unicode.normalizeNFKC username.trim).isEmpty then
        .error ("Username must not be empty" : JSString)
      else
        (splitNameParts (expandAbbreviatedName (unicode.normalizeNFKC username.trim))).mapM
            (parsePart username spellType spellValue) >>= fun rdns =>
          if rdns.any fun rdn => rdn.1 = orgType && !rdn.2.isEmpty then .ok rdns
          else .error (missingOrganization username) := by
  unfold parseExpandedRdns
  dsimp only
  split
  · rfl
  · refine bind_congr fun rdns => ?_
    cases rdns.any fun rdn => rdn.1 = orgType && !rdn.2.isEmpty <;> rfl

/-- **The parse of a name**: its types and values, spelled as asked. -/
theorem parseExpandedRdns_eq_ok_iff :
    unicode.parseExpandedRdns username orgType spellType spellValue = .ok rdns ↔
      (unicode.normalizeNFKC username.trim).isEmpty = false ∧ unicode.WellTyped username ∧
      (unicode.rdnsOf username).map (Prod.map spellType spellValue) = rdns ∧
      (rdns.any fun rdn => rdn.1 = orgType && !rdn.2.isEmpty) = true := by
  rw [parseExpandedRdns_eq, WellTyped, rdnsOf, ← and_assoc (b := _ = rdns),
    ← @mapM_parsePart_eq_ok _ username]
  cases (unicode.normalizeNFKC username.trim).isEmpty with
  | true => exact iff_of_false nofun fun h => nomatch h.1
  | false =>
    cases List.mapM (parsePart username spellType spellValue) _ with
    | error e => exact iff_of_false nofun fun h => nomatch h.2.1
    | ok parsed =>
      change (if parsed.any _ then Except.ok parsed else .error _) = .ok rdns ↔ _
      rw [Except.ok.injEq]
      constructor
      · intro h
        split at h
        · cases h
          exact ⟨rfl, rfl, ‹_›⟩
        · cases h
      · rintro ⟨-, rfl, horg⟩
        exact if_pos horg

/-! ## The key of a person -/

theorem isRdn_rdnsOf (h : unicode.WellTyped username) :
    ∀ rdn ∈ unicode.rdnsOf username, IsRdn rdn := by
  intro rdn hrdn
  obtain ⟨part, hpart, hmatch⟩ := mem_filterMap.mp hrdn
  obtain ⟨found, hfound, -, hvalue⟩ := h part hpart
  obtain rfl := Option.some_injective _ (hfound.symm.trans hmatch)
  exact isRdn_of_matchCanonicalPart (isPart_of_mem_splitNameParts hpart) hmatch hvalue

/-- The types and values of a name as the key spells them. -/
def foldedRdns (unicode : UnicodeTables) (username : JSString) : List (JSString × JSString) :=
  (unicode.rdnsOf username).map (Prod.map unicode.toUpperCase unicode.toLowerCase)

/-- A name is accepted if its parts have types and values and one is the organization. -/
theorem canonicalizeUsername_eq_ok_iff :
    unicode.canonicalizeUsername username = .ok key ↔
      (unicode.normalizeNFKC username.trim).isEmpty = false ∧ unicode.WellTyped username ∧
      ((unicode.foldedRdns username).any fun rdn => rdn.1 = "O" && !rdn.2.isEmpty) = true ∧
      joinRdns (unicode.foldedRdns username) = key := by
  rw [canonicalizeUsername]
  constructor
  · intro h
    cases hparse :
      unicode.parseExpandedRdns username "O" unicode.toUpperCase unicode.toLowerCase with
    | error e => rw [hparse] at h; cases h
    | ok rdns =>
      rw [hparse] at h
      cases h
      obtain ⟨hne, htyped, rfl, horg⟩ := parseExpandedRdns_eq_ok_iff.mp hparse
      exact ⟨hne, htyped, horg, rfl⟩
  · rintro ⟨hne, htyped, horg, rfl⟩
    have hparse : unicode.parseExpandedRdns username "O" unicode.toUpperCase unicode.toLowerCase =
        .ok (unicode.foldedRdns username) :=
      parseExpandedRdns_eq_ok_iff.mpr ⟨hne, htyped, rfl, horg⟩
    rw [hparse]
    rfl

/-- A name whose types and values are read as they stand. -/
theorem rdnsOf_joinRdns (h : ∀ rdn ∈ rdns, IsRdn rdn) (hne : rdns ≠ [])
    (hnormal : unicode.normalizeNFKC (joinRdns rdns) = joinRdns rdns) :
    unicode.WellTyped (joinRdns rdns) ∧ unicode.rdnsOf (joinRdns rdns) = rdns := by
  rw [WellTyped, rdnsOf, trim_joinRdns h, hnormal, expandAbbreviatedName_joinRdns h hne,
    splitNameParts_joinRdns h]
  constructor
  · intro part hpart
    obtain ⟨rdn, hrdn, rfl⟩ := mem_map.mp hpart
    exact ⟨rdn, (h rdn hrdn).matchCanonicalPart, (h rdn hrdn).type.nonempty,
      (h rdn hrdn).value.nonempty⟩
  · rw [filterMap_map]
    exact (filterMap_congr fun rdn hrdn => (h rdn hrdn).matchCanonicalPart).trans
      (filterMap_some)

/-- **The key of a name that is put together** from types and values. -/
theorem canonicalizeUsername_joinRdns (h : ∀ rdn ∈ rdns, IsRdn rdn)
    (hnormal : unicode.normalizeNFKC (joinRdns rdns) = joinRdns rdns)
    (horg : ((rdns.map (Prod.map unicode.toUpperCase unicode.toLowerCase)).any
      fun rdn => rdn.1 = "O" && !rdn.2.isEmpty) = true) :
    unicode.canonicalizeUsername (joinRdns rdns) =
      .ok (joinRdns (rdns.map (Prod.map unicode.toUpperCase unicode.toLowerCase))) := by
  have hne : rdns ≠ [] := by
    rintro rfl
    cases horg
  obtain ⟨htyped, hrdns⟩ := rdnsOf_joinRdns h hne hnormal
  have hempty : (joinRdns rdns).isEmpty = false :=
    isEmpty_join (isPart_of_rdns h) (by simpa using hne)
  refine canonicalizeUsername_eq_ok_iff.mpr ⟨?_, htyped, ?_, ?_⟩
  · rw [trim_joinRdns h, hnormal, hempty]
  · rw [foldedRdns, hrdns, horg]
  · rw [foldedRdns, hrdns]

/-! ## Reading a key and a label again -/

/-- The types and values of a name as its label spells them. -/
def labelledRdns (unicode : UnicodeTables) (username : JSString) : List (JSString × JSString) :=
  (unicode.rdnsOf username).map (Prod.map unicode.toLowerCase id)

/-- **The normal form survives the change of case**, in each type and, behind an equals sign, in
each value. -/
structure StaysNormal (unicode : UnicodeTables) (username : JSString) : Prop where
  upperType : ∀ rdn ∈ unicode.rdnsOf username,
    unicode.normalizeNFKC (unicode.toUpperCase rdn.1) = unicode.toUpperCase rdn.1
  lowerType : ∀ rdn ∈ unicode.rdnsOf username,
    unicode.normalizeNFKC (unicode.toLowerCase rdn.1) = unicode.toLowerCase rdn.1
  upper_lowerType : ∀ rdn ∈ unicode.rdnsOf username,
    unicode.toUpperCase (unicode.toLowerCase rdn.1) = unicode.toUpperCase rdn.1
  lowerValue : ∀ rdn ∈ unicode.rdnsOf username,
    unicode.normalizeNFKC ("=" ++ unicode.toLowerCase rdn.2) = "=" ++ unicode.toLowerCase rdn.2
  value : ∀ rdn ∈ unicode.rdnsOf username, unicode.normalizeNFKC ("=" ++ rdn.2) = "=" ++ rdn.2

/-- A name is normal if its types are and its values are behind their equals signs. -/
theorem normalize_joinRdns (hlawful : unicode.Lawful) (hne : rdns ≠ [])
    (htype : ∀ rdn ∈ rdns, unicode.normalizeNFKC rdn.1 = rdn.1)
    (hvalue : ∀ rdn ∈ rdns, unicode.normalizeNFKC ("=" ++ rdn.2) = "=" ++ rdn.2) :
    unicode.normalizeNFKC (joinRdns rdns) = joinRdns rdns := by
  have hpart : ∀ rdn ∈ rdns, unicode.normalizeNFKC (partOf rdn) = partOf rdn := by
    intro rdn hrdn
    rw [partOf, hlawful.normalize_equals, htype rdn hrdn, hvalue rdn hrdn, JSString.append_assoc]
  change unicode.normalizeNFKC (join "/" (rdns.map partOf)) = join "/" (rdns.map partOf)
  clear htype hvalue
  induction rdns with
  | nil => exact absurd rfl hne
  | cons rdn rdns ih =>
    have hrdn := hpart rdn mem_cons_self
    cases rdns with
    | nil => rw [map_singleton, join_singleton, hrdn]
    | cons rdn' rdns =>
      have hrest := ih (cons_ne_nil _ _) fun rdn h => hpart rdn (mem_cons_of_mem _ h)
      rw [map_cons] at hrest
      rw [map_cons, map_cons, join_cons_cons, hlawful.normalize_slash, hrdn, hrest]

theorem rdnsOf_ne_nil (hkey : unicode.canonicalizeUsername username = .ok key) :
    unicode.rdnsOf username ≠ [] := by
  obtain ⟨-, -, horg, -⟩ := canonicalizeUsername_eq_ok_iff.mp hkey
  intro hnil
  rw [foldedRdns, hnil] at horg
  cases horg

theorem canonicalizeUsername_key (hlawful : unicode.Lawful)
    (hkey : unicode.canonicalizeUsername username = .ok key)
    (hnormal : unicode.StaysNormal username) : unicode.canonicalizeUsername key = .ok key := by
  have hnormalKey : unicode.normalizeNFKC (joinRdns (unicode.foldedRdns username)) =
      joinRdns (unicode.foldedRdns username) :=
    normalize_joinRdns hlawful (mt map_eq_nil_iff.mp (rdnsOf_ne_nil hkey))
      (forall_mem_map.mpr hnormal.upperType) (forall_mem_map.mpr hnormal.lowerValue)
  obtain ⟨-, htyped, horg, rfl⟩ := canonicalizeUsername_eq_ok_iff.mp hkey
  have hfold : (unicode.foldedRdns username).map (Prod.map unicode.toUpperCase unicode.toLowerCase)
      = unicode.foldedRdns username := by
    rw [foldedRdns, map_map]
    exact map_congr_left fun rdn _ =>
      Prod.ext (hlawful.upper_upper rdn.1) (hlawful.lower_lower rdn.2)
  have hread := canonicalizeUsername_joinRdns
    (isRdn_map hlawful.keeps_upper hlawful.keeps_lower (isRdn_rdnsOf htyped)) hnormalKey
    (by rw [← foldedRdns, hfold, horg])
  rw [← foldedRdns, hfold] at hread
  exact hread

theorem formatCanonicalUsernameLabel_eq (hlawful : unicode.Lawful)
    (hkey : unicode.canonicalizeUsername username = .ok key) :
    unicode.formatCanonicalUsernameLabel username =
      .ok (joinRdns (unicode.labelledRdns username)) := by
  obtain ⟨hne, htyped, horg, rfl⟩ := canonicalizeUsername_eq_ok_iff.mp hkey
  have hlabel : ((unicode.labelledRdns username).any fun rdn =>
      rdn.1 = "o" && !rdn.2.isEmpty) = true := by
    obtain ⟨folded, hfolded, horg⟩ := any_eq_true.mp horg
    obtain ⟨rdn, hrdn, rfl⟩ := mem_map.mp hfolded
    rw [Bool.and_eq_true, decide_eq_true_eq] at horg
    refine any_eq_true.mpr ⟨_, mem_map_of_mem hrdn, ?_⟩
    rw [Bool.and_eq_true, decide_eq_true_eq]
    exact ⟨hlawful.lower_of_upper_o rdn.1 horg.1, (hlawful.keeps_lower.isEmpty rdn.2) ▸ horg.2⟩
  have hparse : unicode.parseExpandedRdns username "o" unicode.toLowerCase id =
      .ok (unicode.labelledRdns username) :=
    parseExpandedRdns_eq_ok_iff.mpr ⟨hne, htyped, rfl, hlabel⟩
  rw [formatCanonicalUsernameLabel, hparse]
  rfl

theorem canonicalizeUsername_label (hlawful : unicode.Lawful)
    (hkey : unicode.canonicalizeUsername username = .ok key)
    (hnormal : unicode.StaysNormal username) :
    unicode.canonicalizeUsername (joinRdns (unicode.labelledRdns username)) = .ok key := by
  have hnormalLabel : unicode.normalizeNFKC (joinRdns (unicode.labelledRdns username)) =
      joinRdns (unicode.labelledRdns username) :=
    normalize_joinRdns hlawful (mt map_eq_nil_iff.mp (rdnsOf_ne_nil hkey))
      (forall_mem_map.mpr hnormal.lowerType) (forall_mem_map.mpr hnormal.value)
  obtain ⟨-, htyped, horg, rfl⟩ := canonicalizeUsername_eq_ok_iff.mp hkey
  have hkeeps : KeepsParts id := ⟨fun _ => rfl, fun _ h => h, fun _ _ h _ => h⟩
  have hfold : (unicode.labelledRdns username).map
      (Prod.map unicode.toUpperCase unicode.toLowerCase) = unicode.foldedRdns username := by
    rw [labelledRdns, map_map]
    exact map_congr_left fun rdn hrdn => Prod.ext (hnormal.upper_lowerType rdn hrdn) rfl
  have hread := canonicalizeUsername_joinRdns
    (isRdn_map hlawful.keeps_lower hkeeps (isRdn_rdnsOf htyped)) hnormalLabel
    (by rw [← labelledRdns, hfold, horg])
  rw [← labelledRdns, hfold] at hread
  exact hread

/-! ## What is compared -/

/-- The text of a name, trimmed and in normal form. -/
def nameText (unicode : UnicodeTables) (username : JSString) : JSString :=
  (unicode.normalizeNFKC username.trim).trim

/-- The text of a name that the comparison spells in lower case. -/
def comparedText (unicode : UnicodeTables) (username : JSString) : JSString :=
  (abbreviateCanonicalName (unicode.nameText username)).trim

variable {value : JSString} {u : Fin 65536 → Fin 65536}

theorem abbreviateCanonicalName_of_typed (hne : splitNameParts value ≠ [])
    (h : ∀ part ∈ splitNameParts value,
      ∃ rdn, matchCanonicalPart part = some rdn ∧ rdn.2.isEmpty = false) :
    abbreviateCanonicalName value =
      join "/" (((splitNameParts value).filterMap matchCanonicalPart).map Prod.snd) := by
  have hvalues : ((splitNameParts value).map fun part =>
      (matchCanonicalPart part).bind fun m => if m.2.isEmpty then none else some m.2) =
        (((splitNameParts value).filterMap matchCanonicalPart).map Prod.snd).map some := by
    generalize splitNameParts value = parts at h
    induction parts with
    | nil => rfl
    | cons part parts ih =>
      obtain ⟨rdn, hrdn, hvalue⟩ := h part mem_cons_self
      rw [map_cons, ih fun p hp => h p (mem_cons_of_mem _ hp),
        filterMap_cons_some hrdn, hrdn, Option.bind_some, if_neg (Bool.eq_false_iff.mp hvalue)]
      rfl
  rw [abbreviateCanonicalName]
  have hany (l : List JSString) : (l.map some).any Option.isNone = false := by
    rw [any_map]
    exact any_eq_false.mpr fun _ _ => Bool.false_ne_true
  rw [hvalues, hany, List.isEmpty_eq_false_iff.mpr hne, Bool.or_false, if_neg Bool.false_ne_true,
    List.reduceOption, filterMap_map]
  exact congrArg (join "/") filterMap_some

theorem abbreviateCanonicalName_of_untyped
    (h : ¬(splitNameParts value ≠ [] ∧ ∀ part ∈ splitNameParts value,
      ∃ rdn, matchCanonicalPart part = some rdn ∧ rdn.2.isEmpty = false)) :
    abbreviateCanonicalName value = value.trim := by
  rw [abbreviateCanonicalName]
  refine if_pos (by_contra fun hall => h ?_)
  rw [Bool.or_eq_true, not_or, List.isEmpty_iff, any_map, any_eq_true] at hall
  refine ⟨hall.1, fun part hpart => by_contra fun hnone => hall.2 ⟨part, hpart, ?_⟩⟩
  cases hmatch : matchCanonicalPart part with
  | none => rw [Function.comp_apply, hmatch]; rfl
  | some rdn =>
    cases hvalue : rdn.2.isEmpty with
    | true => rw [Function.comp_apply, hmatch, Option.bind_some, if_pos hvalue]; rfl
    | false => exact absurd ⟨rdn, hmatch, hvalue⟩ hnone

theorem isCanonicalName_iff (htrim : value.trim = value) :
    isCanonicalName value = true ↔ splitNameParts value ≠ [] ∧ ∀ part ∈ splitNameParts value,
      ∃ rdn, matchCanonicalPart part = some rdn ∧ rdn.1.isEmpty = false ∧
        rdn.2.isEmpty = false := by
  rw [isCanonicalName, htrim]
  simp only [Bool.and_eq_true, all_eq_true, Option.any_eq_true, Bool.not_eq_true',
    ne_eq, List.isEmpty_eq_false_iff]

/-- The type that an expansion gives to the part at an index. -/
def tagOf (count index : ℕ) : JSString :=
  if index = 0 then "cn" else if index = count - 1 then "o" else "ou"

theorem isPart_tagOf (count index : ℕ) :
    IsPart (tagOf count index) ∧ equalsSign ∉ (tagOf count index).units := by
  rw [tagOf]
  split
  · exact ⟨⟨by decide, by decide, by decide⟩, by decide⟩
  · split
    · exact ⟨⟨by decide, by decide, by decide⟩, by decide⟩
    · exact ⟨⟨by decide, by decide, by decide⟩, by decide⟩

/-- What an expansion makes of a part and its index. -/
def expandPart (count : ℕ) (part : JSString × ℕ) : JSString :=
  if (matchCanonicalPart part.1).isSome then part.1 else partOf (tagOf count part.2, part.1)

theorem isPart_expandPart {part : JSString × ℕ} (hpart : IsPart part.1) (count : ℕ) :
    IsPart (expandPart count part) := by
  rw [expandPart]
  split
  · exact hpart
  · exact isPart_partOf (isPart_tagOf count part.2).1 hpart

/-- The expansion of a name some part of which has no type. -/
theorem expandAbbreviatedName_of_untyped (huntyped : ¬isCanonicalName value.trim = true)
    (hlength : 2 ≤ (splitNameParts value.trim).length) :
    expandAbbreviatedName value = join "/" ((splitNameParts value.trim).zipIdx.map
      (expandPart (splitNameParts value.trim).length)) := by
  have hlong : ¬(isCanonicalName value.trim || decide ((splitNameParts value.trim).length < 2))
      = true := by
    rw [Bool.or_eq_true, decide_eq_true_eq, not_or]
    exact ⟨huntyped, not_lt.mpr hlength⟩
  rw [expandAbbreviatedName, if_neg hlong]
  refine congrArg (join "/") (map_congr_left ?_)
  rintro ⟨part, index⟩ -
  dsimp only [expandPart, tagOf]
  split
  · rfl
  · split
    · rfl
    · split <;> rfl

/-! ## The values of a name -/

/-- The value of a part, which is the part if it has no type. -/
def valueIn (part : JSString) : JSString := ((matchCanonicalPart part).map Prod.snd).getD part

theorem valueIn_of_some (h : matchCanonicalPart part = some rdn) : valueIn part = rdn.2 := by
  rw [valueIn, h]
  rfl

theorem valueIn_of_none (h : matchCanonicalPart part = none) : valueIn part = part := by
  rw [valueIn, h]
  rfl

/-- An expansion keeps the value of a part, which has one line. -/
theorem valueIn_expandPart {count : ℕ} {part : JSString × ℕ} (hpart : IsPart part.1)
    (hfound : matchCanonicalPart (expandPart count part) = some rdn) :
    valueIn (expandPart count part) = valueIn part.1 ∧
      (matchCanonicalPart part.1 = none →
        ∀ unit ∈ part.1.units, isLineTerminator unit = false) := by
  rw [expandPart] at hfound ⊢
  split at hfound
  · rename_i hsome
    rw [if_pos hsome]
    refine ⟨rfl, fun hnone => ?_⟩
    rw [hnone] at hsome
    cases hsome
  · rename_i hnone
    rw [if_neg hnone]
    rw [Bool.not_eq_true, Option.isSome_eq_false_iff, Option.isNone_iff_eq_none] at hnone
    have htag := isPart_tagOf count part.2
    rw [matchCanonicalPart_partOf htag.1 hpart htag.2] at hfound
    split at hfound
    · cases hfound
    · rename_i hline
      rw [valueIn_of_none hnone, valueIn, matchCanonicalPart_partOf htag.1 hpart htag.2,
        if_neg hline]
      exact ⟨rfl, fun _ unit hunit =>
        Bool.eq_false_iff.mpr (any_eq_false.mp (Bool.not_eq_true _ ▸ hline) unit hunit)⟩

theorem values_filterMap (h : ∀ part ∈ parts, ∃ rdn, matchCanonicalPart part = some rdn) :
    (parts.filterMap matchCanonicalPart).map Prod.snd = parts.map valueIn := by
  induction parts with
  | nil => rfl
  | cons part parts ih =>
    obtain ⟨rdn, hrdn⟩ := h part mem_cons_self
    rw [filterMap_cons_some hrdn, map_cons, map_cons, valueIn_of_some hrdn,
      ih fun p hp => h p (mem_cons_of_mem _ hp)]

/-- **The values of an accepted name** are those of its parts, typed or not. -/
theorem values_rdnsOf (hkey : unicode.canonicalizeUsername username = .ok key) :
    (unicode.rdnsOf username).map Prod.snd =
        (splitNameParts (unicode.nameText username)).map valueIn ∧
      ∀ part ∈ splitNameParts (unicode.nameText username), matchCanonicalPart part = none →
        ∀ unit ∈ part.units, isLineTerminator unit = false := by
  obtain ⟨-, htyped, -, -⟩ := canonicalizeUsername_eq_ok_iff.mp hkey
  have hne := rdnsOf_ne_nil hkey
  have hvalues := values_filterMap fun part hpart =>
    (htyped part hpart).imp fun rdn hrdn => hrdn.1
  rw [rdnsOf, nameText, hvalues]
  rw [rdnsOf] at hne
  rw [WellTyped] at htyped
  generalize unicode.normalizeNFKC username.trim = value at htyped hne ⊢
  by_cases hasIs : expandAbbreviatedName value = value.trim
  · rw [hasIs] at htyped ⊢
    refine ⟨rfl, fun part hpart hnone => ?_⟩
    obtain ⟨rdn, hrdn, -⟩ := htyped part hpart
    rw [hnone] at hrdn
    cases hrdn
  · have hexpands :
        ¬(isCanonicalName value.trim = true ∨ (splitNameParts value.trim).length < 2) := by
      intro h
      refine hasIs ?_
      rw [expandAbbreviatedName]
      exact if_pos (by rwa [Bool.or_eq_true, decide_eq_true_eq])
    rw [not_or, not_lt] at hexpands
    have hparts : ∀ part ∈ (splitNameParts value.trim).zipIdx, IsPart part.1 := fun part hpart =>
      isPart_of_mem_splitNameParts (fst_mem_of_mem_zipIdx hpart)
    rw [expandAbbreviatedName_of_untyped hexpands.1 hexpands.2, splitNameParts_join
      (forall_mem_map.mpr fun part hpart => isPart_expandPart (hparts part hpart) _)]
      at htyped ⊢
    have hread : ∀ part ∈ (splitNameParts value.trim).zipIdx,
        valueIn (expandPart (splitNameParts value.trim).length part) = valueIn part.1 ∧
          (matchCanonicalPart part.1 = none →
            ∀ unit ∈ part.1.units, isLineTerminator unit = false) := by
      intro part hpart
      obtain ⟨rdn, hrdn, -⟩ := htyped _ (mem_map_of_mem hpart)
      exact valueIn_expandPart (hparts part hpart) hrdn
    constructor
    · conv_rhs => rw [← zipIdx_map_fst 0 (splitNameParts value.trim)]
      rw [map_map, map_map]
      exact map_congr_left fun part hpart => (hread part hpart).1
    · intro part hpart
      rw [← zipIdx_map_fst 0 (splitNameParts value.trim)] at hpart
      obtain ⟨indexed, hindexed, rfl⟩ := mem_map.mp hpart
      exact (hread indexed hindexed).2

theorem isPart_values (h : ∀ rdn ∈ rdns, IsRdn rdn) : ∀ part ∈ rdns.map Prod.snd, IsPart part := by
  intro part hpart
  obtain ⟨rdn, hrdn, rfl⟩ := mem_map.mp hpart
  exact (h rdn hrdn).value

/-- The types that a key spells. -/
def typesOf (unicode : UnicodeTables) (username : JSString) : List JSString :=
  (unicode.foldedRdns username).map Prod.fst

/-- The values that a key spells. -/
def valuesOf (unicode : UnicodeTables) (username : JSString) : List JSString :=
  (unicode.foldedRdns username).map Prod.snd

theorem foldedRdns_eq_iff {a b : JSString} : unicode.foldedRdns a = unicode.foldedRdns b ↔
    unicode.typesOf a = unicode.typesOf b ∧ unicode.valuesOf a = unicode.valuesOf b := by
  constructor
  · intro h
    rw [typesOf, typesOf, valuesOf, valuesOf, h]
    exact ⟨rfl, rfl⟩
  · rintro ⟨htypes, hvalues⟩
    exact (zip_of_prod htypes hvalues).trans (zip_of_prod rfl rfl).symm

theorem valuesOf_eq : unicode.valuesOf username =
    ((unicode.rdnsOf username).map Prod.snd).map unicode.toLowerCase := by
  rw [valuesOf, foldedRdns, map_map, map_map]
  rfl

theorem isPart_valuesOf (hlawful : unicode.Lawful)
    (hkey : unicode.canonicalizeUsername username = .ok key) :
    ∀ value ∈ unicode.valuesOf username, IsPart value := by
  obtain ⟨-, htyped, -, -⟩ := canonicalizeUsername_eq_ok_iff.mp hkey
  exact isPart_values (isRdn_map hlawful.keeps_upper hlawful.keeps_lower (isRdn_rdnsOf htyped))

theorem valuesOf_ne_nil (hkey : unicode.canonicalizeUsername username = .ok key) :
    unicode.valuesOf username ≠ [] := by
  rw [valuesOf_eq]
  exact mt map_eq_nil_iff.mp (mt map_eq_nil_iff.mp (rdnsOf_ne_nil hkey))

/-! ## Lower case -/

/-- The names are alike in lower case if their parts are. -/
theorem lower_join (hlawful : unicode.Lawful) (parts : List JSString) :
    unicode.toLowerCase (join "/" parts) = join "/" (parts.map unicode.toLowerCase) := by
  induction parts with
  | nil =>
    have hempty := hlawful.keeps_lower.isEmpty (join "/" [])
    exact units_injective (List.isEmpty_iff.mp hempty)
  | cons part parts ih =>
    cases parts with
    | nil => rw [map_singleton, join_singleton, join_singleton]
    | cons part' parts =>
      rw [join_cons_cons, hlawful.lower_slash, ih, map_cons, map_cons, map_cons,
        join_cons_cons]

theorem split_lower (hlawful : unicode.Lawful) (s : JSString) :
    (unicode.toLowerCase s).split '/' = (s.split '/').map unicode.toLowerCase := by
  have hjoin : s = join "/" (s.split '/') := (join_split_unit s '/').symm
  conv_lhs => rw [hjoin, lower_join hlawful]
  refine split_join ?_ ?_
  · rw [ne_eq, map_eq_nil_iff, split, map_eq_nil_iff]
    exact splitOn_ne_nil _ _
  · rw [forall_mem_map]
    exact fun part hpart hs =>
      notMem_of_mem_split hpart (hlawful.keeps_lower.mark part _ hs (.inl rfl))

/-- A part in lower case has the value in lower case. -/
theorem valueIn_lower (hlawful : unicode.Lawful)
    (hline : matchCanonicalPart part = none → ∀ unit ∈ part.units, isLineTerminator unit = false) :
    valueIn (unicode.toLowerCase part) = unicode.toLowerCase (valueIn part) := by
  have hkeeps := hlawful.keeps_lower
  obtain hnone | ⟨pre, post, rfl, hpre⟩ := exists_append_of_part part
  · rw [valueIn_of_none (matchCanonicalPart_of_notMem hnone), valueIn_of_none
      (matchCanonicalPart_of_notMem fun hmem => hnone (hkeeps.mark part _ hmem (.inr (.inl rfl))))]
  · have hpre' : equalsSign ∉ (unicode.toLowerCase pre).units := fun hmem =>
      hpre (hkeeps.mark pre _ hmem (.inr (.inl rfl)))
    have hlower : (unicode.toLowerCase post.trim).units.any isLineTerminator = true →
        post.trim.units.any isLineTerminator = true := by
      rw [any_eq_true, any_eq_true]
      exact fun ⟨unit, hunit, h⟩ => ⟨unit, hkeeps.mark _ unit hunit (.inr (.inr h)), h⟩
    rw [matchCanonicalPart_append hpre] at hline
    rw [valueIn, valueIn, hlawful.lower_equals, matchCanonicalPart_append hpre,
      matchCanonicalPart_append hpre', hkeeps.isEmpty, hlawful.lower_trim]
    cases hempty : pre.isEmpty with
    | true => exact (hlawful.lower_equals pre post).symm
    | false =>
      cases hpost : post.trim.units.any isLineTerminator with
      | true =>
        -- a part with a second line has no type, and no name with it is accepted
        obtain ⟨unit, hunit, hterminator⟩ := any_eq_true.mp hpost
        have hmem : unit ∈ (pre ++ "=" ++ post).units :=
          mem_append_right _ ((units_trim_sublist post).mem hunit)
        rw [hline (by rw [hpost, Bool.or_true]; rfl) unit hmem] at hterminator
        cases hterminator
      | false =>
        rw [Bool.eq_false_iff.mpr fun h => Bool.eq_false_iff.mp hpost (hlower h)]
        rfl

/-! ## What is written around the values -/

/-- The value of a segment between two slashes, unless it is blank. -/
def segmentValue? (segment : JSString) : Option JSString :=
  if segment.trim.isEmpty then none else some (valueIn segment.trim)

/-- **What is written around the value of a segment**: the text before it, with the spaces and a
type, and the spaces after it; of a blank segment all. -/
def aroundValue (segment : JSString) : List JSString :=
  if segment.trim.isEmpty then [segment]
  else
    [⟨segment.units.takeWhile isSpace⟩ ++
        segment.trim.take (segment.trim.length - (valueIn segment.trim).length),
      ⟨(segment.units.dropWhile isSpace).rtakeWhile isSpace⟩]

/-- The segments of a name in lower case, as they are written. -/
def writtenSegments (unicode : UnicodeTables) (username : JSString) : List JSString :=
  (unicode.toLowerCase (unicode.nameText username)).split '/'

/-- Nothing before a value and nothing after it. -/
def nothingAround : List JSString := [⟨[]⟩, ⟨[]⟩]

/-- **What is written around the values of a name**; nothing counts where every part has a type. -/
def aroundOf (unicode : UnicodeTables) (username : JSString) : List (List JSString) :=
  if isCanonicalName (unicode.nameText username) then
    (unicode.valuesOf username).map fun _ => nothingAround
  else (unicode.writtenSegments username).map aroundValue

/-- The segments that the comparison compares. -/
def comparedSegments (unicode : UnicodeTables) (username : JSString) : List JSString :=
  if isCanonicalName (unicode.nameText username) then unicode.valuesOf username
  else unicode.writtenSegments username

/-- **The values of an accepted name** are the values of its segments. -/
theorem valuesOf_eq_filterMap (hlawful : unicode.Lawful)
    (hkey : unicode.canonicalizeUsername username = .ok key) :
    unicode.valuesOf username = (unicode.writtenSegments username).filterMap segmentValue? := by
  obtain ⟨hvalues, hlines⟩ := values_rdnsOf hkey
  rw [valuesOf_eq, hvalues, writtenSegments, split_lower hlawful]
  rw [splitNameParts] at hlines ⊢
  generalize (unicode.nameText username).split '/' = segments at hlines ⊢
  induction segments with
  | nil => rfl
  | cons segment segments ih =>
    rw [map_cons, map_cons, filterMap_cons, segmentValue?, hlawful.lower_trim,
      hlawful.keeps_lower.isEmpty]
    rw [map_cons] at hlines
    cases hempty : segment.trim.isEmpty with
    | true =>
      rw [filter_cons_of_neg (by rw [hempty]; exact Bool.false_ne_true)] at hlines ⊢
      rw [if_pos rfl]
      exact ih hlines
    | false =>
      rw [filter_cons_of_pos (by rw [hempty]; rfl)] at hlines ⊢
      rw [if_neg Bool.false_ne_true, map_cons, map_cons,
        valueIn_lower hlawful (hlines _ mem_cons_self),
        ih fun part hpart => hlines part (mem_cons_of_mem _ hpart)]

/-- What is after the spaces at the start of an ending of a trimmed text. -/
theorem trim_suffix {s t : JSString} (hs : s.trim = s) (h : t.units <:+ s.units) :
    t.trim.units <:+ t.units := by
  have hdrop := dropWhile_suffix (p := isSpace) (l := t.units)
  refine (List.IsSuffix.trans ?_ hdrop)
  rw [units_trim, rdropWhile_eq_self_iff.mpr]
  intro hne
  have hlast := ((hdrop.trans h).getLast hne)
  rw [hlast]
  exact Bool.eq_false_iff.mp ((trim_eq_self_iff.mp hs _).2)

/-- The value of a part ends it. -/
theorem valueIn_suffix (hpart : part.trim = part) : (valueIn part).units <:+ part.units := by
  cases hmatch : matchCanonicalPart part with
  | none => rw [valueIn_of_none hmatch]
  | some rdn =>
    obtain ⟨pre, post, rfl, -, -, -, rfl⟩ := matchCanonicalPart_eq_some_iff.mp hmatch
    rw [valueIn_of_some hmatch]
    have hpost : post.units <:+ (pre ++ "=" ++ post).units := suffix_append _ _
    exact (trim_suffix hpart hpost).trans hpost

/-- **A segment is its value with what is written around it.** -/
theorem aroundValue_eq {segment : JSString} (h : segment.trim.isEmpty = false) :
    ∃ before after, aroundValue segment = [before, after] ∧
      before ++ valueIn segment.trim ++ after = segment := by
  refine ⟨_, _, if_neg (Bool.eq_false_iff.mp h), units_injective ?_⟩
  obtain ⟨start, hstart⟩ := valueIn_suffix (trim_trim segment)
  have htake : (segment.trim.take (segment.trim.length - (valueIn segment.trim).length)).units =
      start := by
    rw [JSString.take, JSString.length, JSString.length, ← hstart, length_append,
      Nat.add_sub_cancel, take_left]
  rw [units_append, units_append, units_append, htake, List.append_assoc _ start, hstart,
    units_trim, List.append_assoc, rdropWhile_append_rtakeWhile,
    takeWhile_append_dropWhile]

/-- Values put back between what is written around them. -/
def fillIn : List (List JSString) → List JSString → List JSString
  | [segment] :: around, values => segment :: fillIn around values
  | [before, after] :: around, value :: values =>
    (before ++ value ++ after) :: fillIn around values
  | _, _ => []

/-- **Values and what is written around them** make up the segments. -/
theorem fillIn_aroundValue (segments : List JSString) :
    fillIn (segments.map aroundValue) (segments.filterMap segmentValue?) = segments := by
  induction segments with
  | nil => rfl
  | cons segment segments ih =>
    cases hempty : segment.trim.isEmpty with
    | true =>
      have hnone : segmentValue? segment = none := if_pos hempty
      rw [map_cons, filterMap_cons_none hnone, aroundValue, if_pos hempty, fillIn, ih]
    | false =>
      obtain ⟨before, after, haround, heq⟩ := aroundValue_eq hempty
      have hsome : segmentValue? segment = some (valueIn segment.trim) :=
        if_neg (Bool.eq_false_iff.mp hempty)
      rw [map_cons, filterMap_cons_some hsome, haround, fillIn, ih, heq]

theorem fillIn_nothing (values : List JSString) :
    fillIn (values.map fun _ => nothingAround) values = values := by
  induction values with
  | nil => rfl
  | cons value values ih =>
    rw [map_cons, nothingAround, fillIn, ← nothingAround, ih]
    exact congrArg (· :: values) (units_injective (append_nil value.units))

/-! ## The comparison -/

variable {a b keyA keyB : JSString}

/-- What is compared is made up of the values and of what is written around them. -/
theorem fillIn_aroundOf (hlawful : unicode.Lawful)
    (hkey : unicode.canonicalizeUsername username = .ok key) :
    fillIn (unicode.aroundOf username) (unicode.valuesOf username) =
      unicode.comparedSegments username := by
  rw [aroundOf, comparedSegments]
  split
  · exact fillIn_nothing _
  · rw [valuesOf_eq_filterMap hlawful hkey, fillIn_aroundValue]

/-- The text that is compared is made of the segments. -/
theorem split_comparedText (hlawful : unicode.Lawful)
    (hkey : unicode.canonicalizeUsername username = .ok key) :
    (unicode.toLowerCase (unicode.comparedText username)).split '/' =
      unicode.comparedSegments username := by
  have htrim : (unicode.nameText username).trim = unicode.nameText username := trim_trim _
  rw [comparedSegments, comparedText]
  split
  · rename_i hcanonical
    obtain ⟨hne, hparts⟩ := (isCanonicalName_iff htrim).mp hcanonical
    obtain ⟨-, htyped, -, -⟩ := canonicalizeUsername_eq_ok_iff.mp hkey
    have hvalues : join "/" (((splitNameParts (unicode.nameText username)).filterMap
        matchCanonicalPart).map Prod.snd) = join "/" ((unicode.rdnsOf username).map Prod.snd) := by
      rw [(values_rdnsOf hkey).1, values_filterMap fun part hpart =>
        (hparts part hpart).imp fun rdn hrdn => hrdn.1]
    rw [abbreviateCanonicalName_of_typed hne fun part hpart =>
      (hparts part hpart).imp fun rdn hrdn => ⟨hrdn.1, hrdn.2.2⟩, hvalues,
      trim_join (isPart_values (isRdn_rdnsOf htyped)), lower_join hlawful, ← valuesOf_eq]
    exact split_join (valuesOf_ne_nil hkey) fun value hvalue =>
      (isPart_valuesOf hlawful hkey value hvalue).noSlash
  · rename_i huntyped
    rw [abbreviateCanonicalName_of_untyped, htrim, htrim]
    · rfl
    · rintro ⟨hne, hparts⟩
      refine huntyped ((isCanonicalName_iff htrim).mpr ⟨hne, fun part hpart => ?_⟩)
      obtain ⟨rdn, hrdn, hvalue⟩ := hparts part hpart
      have hread := isRdn_of_matchCanonicalPart (isPart_of_mem_splitNameParts hpart) hrdn hvalue
      exact ⟨rdn, hrdn, hread.type.nonempty, hvalue⟩

theorem isEmpty_comparedText (hlawful : unicode.Lawful)
    (hkey : unicode.canonicalizeUsername username = .ok key) :
    (unicode.comparedText username).isEmpty = false := by
  refine Bool.eq_false_iff.mpr fun hempty => ?_
  have hsegments := split_comparedText hlawful hkey
  have hlower : unicode.toLowerCase (unicode.comparedText username) = ⟨[]⟩ :=
    units_injective (List.isEmpty_iff.mp ((hlawful.keeps_lower.isEmpty _).trans hempty))
  rw [hlower, comparedSegments] at hsegments
  -- an empty text is one blank segment, in which no value is read
  split at hsegments
  · have hpart := isPart_valuesOf hlawful hkey ⟨[]⟩ (hsegments ▸ mem_singleton_self _)
    cases hpart.nonempty
  · refine valuesOf_ne_nil hkey ?_
    rw [valuesOf_eq_filterMap hlawful hkey, ← hsegments]
    rfl

/-- **Two accepted names compare as equal** if their segments are the same. -/
theorem usernamesEqual_iff (hlawful : unicode.Lawful)
    (hA : unicode.canonicalizeUsername a = .ok keyA)
    (hB : unicode.canonicalizeUsername b = .ok keyB) :
    unicode.usernamesEqual a b = true ↔
      unicode.comparedSegments a = unicode.comparedSegments b := by
  have htext (username : JSString) :
      unicode.normalizeCanonicalNameForComparison (unicode.normalizeNFKC username) =
        unicode.toLowerCase (unicode.comparedText username) := by
    rw [normalizeCanonicalNameForComparison, comparedText, nameText, hlawful.trim_normalize]
  have hsplit {s t : JSString} (h : s.split '/' = t.split '/') : s = t := by
    rw [← join_split_unit s '/', h, join_split_unit]
  rw [usernamesEqual, htext, htext, Bool.and_eq_true, decide_eq_true_eq,
    hlawful.keeps_lower.isEmpty, isEmpty_comparedText hlawful hA, ← split_comparedText hlawful hA,
    ← split_comparedText hlawful hB]
  exact ⟨fun h => congrArg (split · '/') h.2, fun h => ⟨rfl, hsplit h⟩⟩

/-- Where a name of which some part has no type is written exactly as the values of a name with all
its types, none of these values has a type of its own. -/
def NoTypeBeside (unicode : UnicodeTables) (a b : JSString) : Prop :=
  isCanonicalName (unicode.nameText a) = true → isCanonicalName (unicode.nameText b) = false →
    unicode.writtenSegments b = unicode.valuesOf a →
      ∀ value ∈ unicode.valuesOf a, matchCanonicalPart value = none

/-- **Where the comparison agrees with the keys**: names with the same values have the same types
exactly if the same is written around the values, and no value is read as a type and a value. -/
structure ComparesRight (unicode : UnicodeTables) (a b : JSString) : Prop where
  around : unicode.valuesOf a = unicode.valuesOf b →
    (unicode.typesOf a = unicode.typesOf b ↔ unicode.aroundOf a = unicode.aroundOf b)
  left : unicode.NoTypeBeside a b
  right : unicode.NoTypeBeside b a

/-- A part is longer than a value that is read in it. -/
theorem valueIn_eq_self_iff : valueIn part = part ↔ matchCanonicalPart part = none := by
  refine ⟨fun h => ?_, valueIn_of_none⟩
  cases hmatch : matchCanonicalPart part with
  | none => rfl
  | some rdn =>
    obtain ⟨pre, post, rfl, -, -, -, rfl⟩ := matchCanonicalPart_eq_some_iff.mp hmatch
    rw [valueIn_of_some hmatch] at h
    have hlength := congrArg (List.length ∘ units) h
    have htrim := (units_trim_sublist post).length_le
    simp only [Function.comp_apply, units_append, length_append] at hlength
    have hone : (ofString "=").units.length = 1 := rfl
    omega

theorem filterMap_segmentValue? (h : ∀ part ∈ parts, IsPart part) :
    parts.filterMap segmentValue? = parts.map valueIn := by
  induction parts with
  | nil => rfl
  | cons part parts ih =>
    have hpart := h part mem_cons_self
    have hsome : segmentValue? part = some (valueIn part) := by
      rw [segmentValue?, hpart.trim_eq]
      exact if_neg (Bool.eq_false_iff.mp hpart.nonempty)
    rw [filterMap_cons_some hsome, map_cons,
      ih fun p hp => h p (mem_cons_of_mem _ hp)]

/-- Around a part without a type nothing is written. -/
theorem aroundValue_of_valueIn (hpart : IsPart part) (h : valueIn part = part) :
    aroundValue part = nothingAround := by
  have hne : part.trim.isEmpty = false := hpart.trim_eq.symm ▸ hpart.nonempty
  obtain ⟨before, after, haround, heq⟩ := aroundValue_eq hne
  rw [hpart.trim_eq, h] at heq
  have hlength := congrArg (List.length ∘ units) heq
  simp only [Function.comp_apply, units_append, length_append] at hlength
  have hbefore : before = ⟨[]⟩ := units_injective (length_eq_zero_iff.mp (by omega))
  have hafter : after = ⟨[]⟩ := units_injective (length_eq_zero_iff.mp (by omega))
  rw [haround, hbefore, hafter, nothingAround]

section

variable (hlawful : unicode.Lawful)

include hlawful

/-- A name that is written as its values has no type. -/
theorem valueIn_of_writtenSegments (hB : unicode.canonicalizeUsername b = .ok keyB)
    (h : unicode.writtenSegments b = unicode.valuesOf b) :
    ∀ value ∈ unicode.valuesOf b, valueIn value = value := by
  have hvalues := valuesOf_eq_filterMap hlawful hB
  rw [h, filterMap_segmentValue? (isPart_valuesOf hlawful hB)] at hvalues
  exact map_inj_left.mp (hvalues.symm.trans (map_id _).symm)

/-- Around the values of a name that is written as its values nothing is written. -/
theorem map_aroundValue_of_writtenSegments (hB : unicode.canonicalizeUsername b = .ok keyB)
    (h : unicode.writtenSegments b = unicode.valuesOf b) :
    (unicode.writtenSegments b).map aroundValue =
      (unicode.valuesOf b).map fun _ => nothingAround := by
  rw [h]
  exact map_congr_left fun value hvalue => aroundValue_of_valueIn
    (isPart_valuesOf hlawful hB value hvalue) (valueIn_of_writtenSegments hlawful hB h value hvalue)

/-- **Where the segments are the same**, so are the values, unless a value has a type of its own. -/
theorem valuesOf_eq_of_comparedSegments (hA : unicode.canonicalizeUsername a = .ok keyA)
    (hB : unicode.canonicalizeUsername b = .ok keyB) (hleft : unicode.NoTypeBeside a b)
    (hright : unicode.NoTypeBeside b a)
    (h : unicode.comparedSegments a = unicode.comparedSegments b) :
    unicode.valuesOf a = unicode.valuesOf b := by
  have hbeside {a b keyA keyB : JSString} (hA : unicode.canonicalizeUsername a = .ok keyA)
      (hB : unicode.canonicalizeUsername b = .ok keyB)
      (hwritten : unicode.writtenSegments b = unicode.valuesOf a)
      (hnone : ∀ value ∈ unicode.valuesOf a, matchCanonicalPart value = none) :
      unicode.valuesOf a = unicode.valuesOf b := by
    rw [valuesOf_eq_filterMap hlawful hB, hwritten,
      filterMap_segmentValue? (isPart_valuesOf hlawful hA)]
    exact (map_id _).symm.trans (map_congr_left fun value hvalue =>
      (valueIn_of_none (hnone value hvalue)).symm)
  rw [comparedSegments, comparedSegments] at h
  split at h <;> rename_i hcanonicalA <;> split at h <;> rename_i hcanonicalB
  · exact h
  · exact hbeside hA hB h.symm (hleft hcanonicalA (Bool.not_eq_true _ ▸ hcanonicalB) h.symm)
  · exact (hbeside hB hA h (hright hcanonicalB (Bool.not_eq_true _ ▸ hcanonicalA) h)).symm
  · rw [valuesOf_eq_filterMap hlawful hA, h, valuesOf_eq_filterMap hlawful hB]

theorem noTypeBeside_of_valuesOf (hB : unicode.canonicalizeUsername b = .ok keyB)
    (h : unicode.comparedSegments a = unicode.comparedSegments b →
      unicode.valuesOf a = unicode.valuesOf b) : unicode.NoTypeBeside a b := by
  intro hcanonicalA hcanonicalB hwritten value hvalue
  have hvalues : unicode.valuesOf a = unicode.valuesOf b := by
    refine h ?_
    rw [comparedSegments, comparedSegments, if_pos hcanonicalA, hcanonicalB,
      if_neg Bool.false_ne_true, hwritten]
  rw [hvalues] at hwritten hvalue
  exact valueIn_eq_self_iff.mp (valueIn_of_writtenSegments hlawful hB hwritten value hvalue)

/-- **Where the segments and the values are the same**, the same is written around them. -/
theorem aroundOf_eq_of_comparedSegments (hA : unicode.canonicalizeUsername a = .ok keyA)
    (hB : unicode.canonicalizeUsername b = .ok keyB)
    (hvalues : unicode.valuesOf a = unicode.valuesOf b)
    (h : unicode.comparedSegments a = unicode.comparedSegments b) :
    unicode.aroundOf a = unicode.aroundOf b := by
  rw [comparedSegments, comparedSegments] at h
  rw [aroundOf, aroundOf]
  split at h <;> rename_i hcanonicalA <;> split at h <;> rename_i hcanonicalB
  · rw [if_pos hcanonicalA, if_pos hcanonicalB, hvalues]
  · rw [if_pos hcanonicalA, if_neg hcanonicalB, hvalues,
      map_aroundValue_of_writtenSegments hlawful hB (h.symm.trans hvalues)]
  · rw [if_neg hcanonicalA, if_pos hcanonicalB, ← hvalues,
      map_aroundValue_of_writtenSegments hlawful hA (h.trans hvalues.symm)]
  · rw [if_neg hcanonicalA, if_neg hcanonicalB, h]

/-- **The comparison agrees with the keys** exactly on the pairs that compare right. -/
theorem usernamesEqual_iff_key_iff (hA : unicode.canonicalizeUsername a = .ok keyA)
    (hB : unicode.canonicalizeUsername b = .ok keyB) :
    (unicode.usernamesEqual a b = true ↔ keyA = keyB) ↔ unicode.ComparesRight a b := by
  have hkeys : keyA = keyB ↔
      unicode.typesOf a = unicode.typesOf b ∧ unicode.valuesOf a = unicode.valuesOf b := by
    obtain ⟨-, htypedA, -, rfl⟩ := canonicalizeUsername_eq_ok_iff.mp hA
    obtain ⟨-, htypedB, -, rfl⟩ := canonicalizeUsername_eq_ok_iff.mp hB
    rw [← foldedRdns_eq_iff]
    refine ⟨fun h => joinRdns_injective ?_ ?_ h, fun h => congrArg _ h⟩
    · exact isRdn_map hlawful.keeps_upper hlawful.keeps_lower (isRdn_rdnsOf htypedA)
    · exact isRdn_map hlawful.keeps_upper hlawful.keeps_lower (isRdn_rdnsOf htypedB)
  have hfill (haround : unicode.aroundOf a = unicode.aroundOf b)
      (hvalues : unicode.valuesOf a = unicode.valuesOf b) :
      unicode.comparedSegments a = unicode.comparedSegments b := by
    rw [← fillIn_aroundOf hlawful hA, haround, hvalues, fillIn_aroundOf hlawful hB]
  rw [usernamesEqual_iff hlawful hA hB, hkeys]
  constructor
  · intro h
    refine ⟨fun hvalues => ⟨fun htypes => ?_, fun haround => ?_⟩, ?_, ?_⟩
    · exact aroundOf_eq_of_comparedSegments hlawful hA hB hvalues (h.mpr ⟨htypes, hvalues⟩)
    · exact (h.mp (hfill haround hvalues)).1
    · exact noTypeBeside_of_valuesOf hlawful hB fun hsegments => (h.mp hsegments).2
    · exact noTypeBeside_of_valuesOf hlawful hA fun hsegments => (h.mp hsegments.symm).2.symm
  · intro h
    constructor
    · intro hsegments
      have hvalues := valuesOf_eq_of_comparedSegments hlawful hA hB h.left h.right hsegments
      have haround := aroundOf_eq_of_comparedSegments hlawful hA hB hvalues hsegments
      exact ⟨(h.around hvalues).mpr haround, hvalues⟩
    · rintro ⟨htypes, hvalues⟩
      exact hfill ((h.around hvalues).mp htypes) hvalues

end

/-- **One notion of the same person.** -/
structure OneNotion (unicode : UnicodeTables) (a b keyA keyB : JSString) : Prop where
  equal_iff : unicode.usernamesEqual a b = true ↔ keyA = keyB
  idempotent : unicode.canonicalizeUsername keyA = .ok keyA
  label : ∃ label, unicode.formatCanonicalUsernameLabel a = .ok label ∧
    unicode.canonicalizeUsername label = .ok keyA

/-- Letters that are mapped one by one are trimmed as before. -/
theorem trim_map (hspace : ∀ x, isSpace (u x) = isSpace x) (s : JSString) :
    trim ⟨s.units.map u⟩ = ⟨s.trim.units.map u⟩ := by
  have hcomp : isSpace ∘ u = isSpace := funext hspace
  rw [trim, trim, dropWhile_map, ← map_reverse, dropWhile_map,
    ← map_reverse, hcomp]

/-- A mapping of the letters one by one. -/
theorem keepsParts_map (hspace : ∀ x, isSpace (u x) = isSpace x)
    (hmark : ∀ x, IsMark (u x) → u x = x) : KeepsParts fun s => ⟨s.units.map u⟩ where
  isEmpty s := isEmpty_map
  trim s h := by rw [trim_map hspace, h]
  mark s unit hunit h := by
    obtain ⟨x, hx, rfl⟩ := mem_map.mp hunit
    rw [hmark x h]
    exact hx

theorem of_between {p : Fin 65536 → Prop} {first : ℕ} {x : Fin 65536}
    (hx : first ≤ x.val ∧ x.val ≤ first + 25) (h : ∀ k < 26, p (Fin.ofNat _ (first + k))) :
    p x := by
  have hxk := h (x.val - first) (by omega)
  rwa [Nat.add_sub_cancel' hx.1, Fin.ofNat_val_eq_self] at hxk

/-- A letter is mapped to a letter of the other case. -/
structure MapsLetter (u : Fin 65536 → Fin 65536) (x : Fin 65536) : Prop where
  space : isSpace x = false ∧ isSpace (u x) = false
  mark : u x ≠ slash ∧ u x ≠ equalsSign ∧ isLineTerminator (u x) = false
  again : u (u x) = u x

def asciiLower (unit : Fin 65536) : Fin 65536 :=
  if 0x41 ≤ unit.val ∧ unit.val ≤ 0x5A then unit + 0x20 else unit

def asciiUpper (unit : Fin 65536) : Fin 65536 :=
  if 0x61 ≤ unit.val ∧ unit.val ≤ 0x7A then unit - 0x20 else unit

theorem mapsLetter_asciiLower (x : Fin 65536) : asciiLower x = x ∨ MapsLetter asciiLower x := by
  by_cases hx : 0x41 ≤ x.val ∧ x.val ≤ 0x5A
  · right
    exact ⟨
      of_between (p := fun x => isSpace x = false ∧ isSpace (asciiLower x) = false) hx (by decide),
      of_between (p := fun x => asciiLower x ≠ slash ∧ asciiLower x ≠ equalsSign ∧
        isLineTerminator (asciiLower x) = false) hx (by decide),
      of_between (p := fun x => asciiLower (asciiLower x) = asciiLower x) hx (by decide)⟩
  · exact .inl (if_neg hx)

theorem mapsLetter_asciiUpper (x : Fin 65536) : asciiUpper x = x ∨ MapsLetter asciiUpper x := by
  by_cases hx : 0x61 ≤ x.val ∧ x.val ≤ 0x7A
  · right
    exact ⟨
      of_between (p := fun x => isSpace x = false ∧ isSpace (asciiUpper x) = false) hx (by decide),
      of_between (p := fun x => asciiUpper x ≠ slash ∧ asciiUpper x ≠ equalsSign ∧
        isLineTerminator (asciiUpper x) = false) hx (by decide),
      of_between (p := fun x => asciiUpper (asciiUpper x) = asciiUpper x) hx (by decide)⟩
  · exact .inl (if_neg hx)

section

variable (hu : ∀ x, u x = x ∨ MapsLetter u x)

include hu

theorem isSpace_letters (x : Fin 65536) :
    isSpace (u x) = isSpace x := by
  rcases hu x with heq | hletter
  · rw [heq]
  · rw [hletter.space.1, hletter.space.2]

theorem keepsParts_letters : KeepsParts fun s => ⟨s.units.map u⟩ := by
  refine keepsParts_map (isSpace_letters hu) fun x hmark => ?_
  · rcases hu x with heq | hletter
    · exact heq
    · rcases hmark with heq | heq | hline
      · exact absurd heq hletter.mark.1
      · exact absurd heq hletter.mark.2.1
      · exact absurd hline (Bool.eq_false_iff.mp hletter.mark.2.2)

theorem map_map_letters (s : JSString) : (s.units.map u).map u = s.units.map u := by
  rw [map_map]
  refine map_congr_left fun x _ => ?_
  rcases hu x with heq | hletter
  · rw [Function.comp_apply, heq, heq]
  · exact hletter.again

end

theorem lawful_asciiTables : asciiTables.Lawful where
  lower_lower s := units_injective (map_map_letters mapsLetter_asciiLower s)
  upper_upper s := units_injective (map_map_letters mapsLetter_asciiUpper s)
  keeps_lower := keepsParts_letters mapsLetter_asciiLower
  keeps_upper := keepsParts_letters mapsLetter_asciiUpper
  lower_slash s t := by
    refine units_injective ?_
    change List.map asciiLower (s.units ++ [slash] ++ t.units) = _
    rw [map_append, map_append]
    rfl
  lower_equals s t := by
    refine units_injective ?_
    change List.map asciiLower (s.units ++ [equalsSign] ++ t.units) = _
    rw [map_append, map_append]
    rfl
  lower_trim := trim_map (isSpace_letters mapsLetter_asciiLower)
  lower_of_upper_o s h := by
    obtain ⟨x, hs, hx⟩ := map_eq_singleton_iff.mp (congrArg units h)
    change asciiUpper x = 0x4F at hx
    refine units_injective ?_
    change s.units.map asciiLower = [0x6F]
    rw [hs, map_singleton]
    by_cases hcase : 0x61 ≤ x.val ∧ x.val ≤ 0x7A
    · rw [asciiUpper, if_pos hcase] at hx
      obtain rfl : x = 0x6F := by omega
      rfl
    · rw [asciiUpper, if_neg hcase] at hx
      subst hx
      rfl
  trim_normalize := trim_trim
  normalize_slash _ _ := rfl
  normalize_equals s t := JSString.append_assoc s "=" t

end UnicodeTables

end MindooDB.Sealed
