import MindooDB.Directory.Types
import MindooDB.Lib.FirstAppearance

/-!
# Directory/GrantKeyLists — device keys, written and read back

`applyKeyPairFields` of `core/accesscontrol/grantKeys.ts` and the readers that look at all devices.

What the canonical lists hold is read back (`extractKeyPairs_applyKeyPairFields`), and a revoked
device is in no list that grants access.  Documents older than those lists are paired by index
*after* both arrays have lost their duplicates and their empty places, each on its own; so a device
gets its own encryption key only when the two arrays lose nothing that shifts them against each
other (`extractKeyPairs_eq_alignedKeyPairs_iff`).
-/

namespace MindooDB

open GrantKeyPair LinkedSet List

/-! ## Reading -/

def canonicalRevokedPairs (data : JsonObject) : List GrantKeyPair :=
  parsePairEntries (data.field "revokedUserKeyPairs") true

/-- All devices, the active ones first. -/
def extractKeyPairs (data : JsonObject) : List GrantKeyPair :=
  if hasCanonicalKeyLists data then canonicalActivePairs data ++ canonicalRevokedPairs data
  else legacyKeyPairs data

def extractRevokedKeyPairs (data : JsonObject) : List GrantKeyPair := canonicalRevokedPairs data

def extractSigningPublicKeys (data : JsonObject) : List JSString :=
  if hasCanonicalKeyLists data then
    (ofList ((extractActiveKeyPairs data).map (·.signingPublicKey))).toList
  else legacySigningKeys data

def extractEncryptionPublicKeys (data : JsonObject) : List JSString :=
  if hasCanonicalKeyLists data then
    (ofList (((extractActiveKeyPairs data).map (·.encryptionPublicKey)).filter
      fun key => !key.isEmpty)).toList
  else legacyEncryptionKeys data

/-! ## Writing -/

/-- `data[key] = value`. -/
def setField (data : JsonObject) (key : JSString) (value : Json) : JsonObject :=
  LinkedMap.setList key value data

/-- A field that is written when there is a value for it. -/
def optionalField (key : JSString) (value : Option Json) : JsonObject :=
  value.toList.map fun value => (key, value)

/-- The entry of a key list; `now` is the clock, read for a pair without `addedAt`. -/
def keyPairEntry (now : GrantKeyPair → JsNumber) (pair : GrantKeyPair) : JsonObject :=
  optionalField "signingPublicKey" (some (.string pair.signingPublicKey))
    ++ optionalField "encryptionPublicKey" (some (.string pair.encryptionPublicKey))
    ++ optionalField "label" ((pair.label.filter fun s => !s.isEmpty).map .string)
    ++ optionalField "addedAt" (some (.number (pair.addedAt.getD (now pair))))
    ++ optionalField "joinResponseWrapped"
      ((pair.joinResponseWrapped.filter fun s => !s.isEmpty).map .string)

/-- A revoked one carries when it was. -/
def revokedKeyPairEntry (now : GrantKeyPair → JsNumber) (pair : GrantKeyPair) : JsonObject :=
  keyPairEntry now pair ++ optionalField "revokedAt" (pair.revokedAt.map .number)

/-- Both lists, and the active keys once more in the older forms. -/
def applyKeyPairFields (now : GrantKeyPair → JsNumber) (data : JsonObject)
    (pairs : List GrantKeyPair) : JsonObject :=
  let activePairs := pairs.filter fun pair => !pair.revoked
  let revokedPairs := pairs.filter fun pair => pair.revoked
  let data := setField data "userKeyPairs"
    (.array (activePairs.map fun pair => .object (keyPairEntry now pair)))
  let data := setField data "revokedUserKeyPairs"
    (.array (revokedPairs.map fun pair => .object (revokedKeyPairEntry now pair)))
  let data := setField data "userSigningPublicKeys"
    (.array (activePairs.map fun pair => .string pair.signingPublicKey))
  let data := setField data "userEncryptionPublicKeys"
    (.array (((activePairs.map (·.encryptionPublicKey)).filter fun key => !key.isEmpty).map .string))
  match activePairs with
  | [] => data
  | primary :: _ =>
    setField (setField data "userSigningPublicKey" (.string primary.signingPublicKey))
      "userEncryptionPublicKey" (.string primary.encryptionPublicKey)

/-! ## The canonical lists are read back -/

@[simp] theorem field_setField (data : JsonObject) (key : JSString) (value : Json) (key' : JSString) :
    (setField data key value).field key' = if key' = key then some value else data.field key' :=
  LinkedMap.lookup_setList key value key' data

/-- **What storage makes of a pair**: an empty label or wrapper is none, there is a date, and only a
revoked pair has one of its revocation. -/
def GrantKeyPair.stored (now : GrantKeyPair → JsNumber) (pair : GrantKeyPair) : GrantKeyPair :=
  { pair with
    label := pair.label.filter fun s => !s.isEmpty
    addedAt := some (pair.addedAt.getD (now pair))
    joinResponseWrapped := pair.joinResponseWrapped.filter fun s => !s.isEmpty
    revokedAt := if pair.revoked then pair.revokedAt else none }

section Entries

variable (now : GrantKeyPair → JsNumber) (pair : GrantKeyPair)

theorem lookup_optionalField_append (key : JSString) (value : Option Json) (rest : JsonObject)
    (key' : JSString) : (optionalField key value ++ rest).lookup key'
      = if key' = key then value.or (rest.lookup key') else rest.lookup key' := by
  cases value with
  | none => simp [optionalField]
  | some value =>
    simp [optionalField, LinkedMap.lookup_cons_eq_ite]

theorem lookup_optionalField (key : JSString) (value : Option Json) (key' : JSString) :
    (optionalField key value).lookup key' = if key' = key then value else none := by
  have h := lookup_optionalField_append key value [] key'
  simpa using h

/-- **The fields of an entry**, with a date of revocation or without. -/
theorem field_keyPairEntry (revokedAt : Option Json) :
    let entry := keyPairEntry now pair ++ optionalField "revokedAt" revokedAt
    entry.field "signingPublicKey" = some (.string pair.signingPublicKey) ∧
    entry.field "encryptionPublicKey" = some (.string pair.encryptionPublicKey) ∧
    entry.field "label" = (pair.label.filter fun s => !s.isEmpty).map .string ∧
    entry.field "addedAt" = some (.number (pair.addedAt.getD (now pair))) ∧
    entry.field "joinResponseWrapped"
      = (pair.joinResponseWrapped.filter fun s => !s.isEmpty).map .string ∧
    entry.field "revokedAt" = revokedAt := by
  simp only [keyPairEntry, append_assoc, JsonObject.field, lookup_optionalField_append,
    lookup_optionalField]
  refine ⟨rfl, rfl, ?_, ?_, ?_, ?_⟩ <;> simp +decide

theorem getD_filter_isEmpty (s : JSString) :
    ((some s).filter fun s => !s.isEmpty).getD "" = s := by
  rw [Option.filter_some]
  split
  · rfl
  · rename_i hs
    have hempty : s.units = [] := List.isEmpty_iff.mp (by simpa [JSString.isEmpty] using hs)
    exact JSString.units_injective hempty.symm

theorem asScalarString_map_string (value : Option JSString) :
    asScalarString ((value.filter fun s => !s.isEmpty).map .string)
      = value.filter fun s => !s.isEmpty := by
  cases hvalue : value.filter fun s => !s.isEmpty with
  | none => rfl
  | some s =>
    have hs := (Option.filter_eq_some_iff.mp hvalue).2
    rw [Option.map_some, asScalarString, Json.asString?, Option.filter_some, if_pos hs]

theorem asNumber?_map_number (value : Option JsNumber) :
    Json.asNumber? (value.map .number) = value := by
  cases value <;> rfl

end Entries

section Canonical

variable {now : GrantKeyPair → JsNumber} {data : JsonObject} {pairs : List GrantKeyPair}

/-- The entry of a list: the one of revoked devices has a date more. -/
def listEntry (now : GrantKeyPair → JsNumber) (markRevoked : Bool) (pair : GrantKeyPair) : Json :=
  .object (if markRevoked then revokedKeyPairEntry now pair else keyPairEntry now pair)

/-- An entry gives its pair back. -/
theorem parsePairEntry_listEntry (now : GrantKeyPair → JsNumber) (read : List GrantKeyPair)
    {pair : GrantKeyPair} (hkey : pair.signingPublicKey.isEmpty = false)
    (hnew : pair.signingPublicKey ∉ read.map (·.signingPublicKey)) :
    parsePairEntry pair.revoked read (listEntry now pair.revoked pair)
      = read ++ [pair.stored now] := by
  have hfresh : (read.any fun other => other.signingPublicKey = pair.signingPublicKey) = false := by
    rw [any_eq_false]
    intro other hother heq
    exact hnew (mem_map.mpr ⟨other, hother, by simpa using heq⟩)
  have hentry : listEntry now pair.revoked pair = .object (keyPairEntry now pair
      ++ optionalField "revokedAt" (if pair.revoked then pair.revokedAt.map .number else none)) := by
    rw [listEntry]
    cases pair.revoked <;> simp [revokedKeyPairEntry, optionalField]
  obtain ⟨hsigning, hencryption, hlabel, haddedAt, hjoin, hrevokedAt⟩ := field_keyPairEntry now pair
    (if pair.revoked then pair.revokedAt.map .number else none)
  have hscalar : ∀ s : JSString, asScalarString (some (.string s))
      = (some s).filter fun s => !s.isEmpty := fun _ => rfl
  have hnumber : ∀ n : JsNumber, Json.asNumber? (some (.number n)) = some n := fun _ => rfl
  have hsome : (some pair.signingPublicKey).filter (fun s => !s.isEmpty)
      = some pair.signingPublicKey := by
    rw [Option.filter_some, if_pos (by simp [hkey])]
  rw [hentry, parsePairEntry, Json.asObject?]
  simp only [hsigning, hencryption, hlabel, haddedAt, hjoin, hrevokedAt, hscalar, hsome, hfresh,
    getD_filter_isEmpty, asLabel, asScalarString_map_string, hnumber, stored,
    Bool.false_eq_true, if_false]
  cases pair.revoked <;> simp [asNumber?_map_number]

/-- A written list gives its pairs back. -/
theorem parsePairEntries_map (markRevoked : Bool) {l : List GrantKeyPair}
    (hmark : ∀ pair ∈ l, pair.revoked = markRevoked)
    (hkeys : ∀ pair ∈ l, pair.signingPublicKey.isEmpty = false)
    (hdistinct : (l.map (·.signingPublicKey)).Nodup) :
    parsePairEntries (some (.array (l.map (listEntry now markRevoked)))) markRevoked
      = l.map (stored now) := by
  have hloop : ∀ read, (∀ pair ∈ l, pair.signingPublicKey ∉ read.map (·.signingPublicKey)) →
      (l.map (listEntry now markRevoked)).foldl (parsePairEntry markRevoked) read
        = read ++ l.map (stored now) := by
    induction l with
    | nil => simp
    | cons pair l ih =>
      intro read hread
      obtain ⟨hpair, hl⟩ := nodup_cons.mp hdistinct
      have hone := parsePairEntry_listEntry now read (hkeys pair mem_cons_self)
        (hread pair mem_cons_self)
      rw [hmark pair mem_cons_self] at hone
      rw [map_cons, foldl_cons, hone, ih (fun p hp => hmark p (mem_cons_of_mem _ hp))
        (fun p hp => hkeys p (mem_cons_of_mem _ hp)) hl, map_cons, append_assoc]
      · rfl
      · intro p hp hmem
        rw [map_append, mem_append] at hmem
        rcases hmem with hmem | hmem
        · exact hread p (mem_cons_of_mem _ hp) hmem
        · have heq : p.signingPublicKey = pair.signingPublicKey := by
            simpa [stored] using hmem
          exact hpair (mem_map.mpr ⟨p, hp, heq⟩)
  rw [parsePairEntries, Json.asArray?, Option.getD_some, hloop [] (by simp), nil_append]

/-! ## Written and read -/

/-- What `applyKeyPairFields` leaves in the canonical lists. -/
theorem field_applyKeyPairFields (now : GrantKeyPair → JsNumber) (data : JsonObject)
    (pairs : List GrantKeyPair) :
    (applyKeyPairFields now data pairs).field "userKeyPairs"
      = some (.array ((pairs.filter fun pair => !pair.revoked).map (listEntry now false))) ∧
    (applyKeyPairFields now data pairs).field "revokedUserKeyPairs"
      = some (.array ((pairs.filter fun pair => pair.revoked).map (listEntry now true))) := by
  simp only [applyKeyPairFields]
  split <;> simp +decide [field_setField, listEntry]

/-- **All devices are read back**, the active ones first. -/
theorem extractKeyPairs_applyKeyPairFields (now : GrantKeyPair → JsNumber) (data : JsonObject)
    (hkeys : ∀ pair ∈ pairs, pair.signingPublicKey.isEmpty = false)
    (hdistinct : (pairs.map (·.signingPublicKey)).Nodup) :
    canonicalActivePairs (applyKeyPairFields now data pairs)
        = (pairs.filter fun pair => !pair.revoked).map (stored now) ∧
      canonicalRevokedPairs (applyKeyPairFields now data pairs)
        = (pairs.filter fun pair => pair.revoked).map (stored now) := by
  obtain ⟨hactive, hrevoked⟩ := field_applyKeyPairFields now data pairs
  have hsub : ∀ p : GrantKeyPair → Bool, ((pairs.filter p).map (·.signingPublicKey)).Nodup := fun _ =>
    hdistinct.sublist (filter_sublist.map _)
  rw [canonicalActivePairs, canonicalRevokedPairs, hactive, hrevoked]
  constructor
  · exact parsePairEntries_map false (fun pair hpair => by simpa using (mem_filter.mp hpair).2)
      (fun pair hpair => hkeys pair (mem_filter.mp hpair).1) (hsub _)
  · exact parsePairEntries_map true (fun pair hpair => (mem_filter.mp hpair).2)
      (fun pair hpair => hkeys pair (mem_filter.mp hpair).1) (hsub _)

theorem hasCanonicalKeyLists_applyKeyPairFields :
    hasCanonicalKeyLists (applyKeyPairFields now data pairs) = true := by
  rw [hasCanonicalKeyLists, (field_applyKeyPairFields now data pairs).1]
  rfl

/-- A pair that was read back as it was given. -/
structure GrantKeyPair.SameAs (given read : GrantKeyPair) : Prop where
  signingPublicKey : read.signingPublicKey = given.signingPublicKey
  encryptionPublicKey : read.encryptionPublicKey = given.encryptionPublicKey
  label : read.label = given.label
  joinResponseWrapped : read.joinResponseWrapped = given.joinResponseWrapped
  revoked : read.revoked = given.revoked
  addedAt : given.addedAt.isSome = true → read.addedAt = given.addedAt
  revokedAt : given.revokedAt.isSome = true → read.revokedAt = given.revokedAt

/-- **What is stored as it is given**: a label and a wrapper that are there are not empty, and only a
revoked pair has a date of its revocation. -/
def GrantKeyPair.Plain (pair : GrantKeyPair) : Prop :=
  pair.label ≠ some ("" : JSString) ∧ pair.joinResponseWrapped ≠ some ("" : JSString) ∧
    (pair.revoked = false → pair.revokedAt = none)

theorem filter_isEmpty_eq_self {value : Option JSString} :
    value.filter (fun s => !s.isEmpty) = value ↔ value ≠ some ("" : JSString) := by
  cases value with
  | none => simp
  | some s =>
    have hempty : s.isEmpty = true ↔ s = "" := by
      rw [JSString.isEmpty, List.isEmpty_iff]
      exact ⟨fun h => JSString.units_injective h, fun h => congrArg JSString.units h⟩
    rw [Option.filter_some, ne_eq, Option.some.injEq, ← hempty]
    cases s.isEmpty <;> simp

theorem sameAs_stored_iff (now : GrantKeyPair → JsNumber) (pair : GrantKeyPair) :
    pair.SameAs (pair.stored now) ↔ pair.Plain := by
  constructor
  · intro h
    refine ⟨filter_isEmpty_eq_self.mp h.label, filter_isEmpty_eq_self.mp h.joinResponseWrapped,
      fun hactive => ?_⟩
    cases hdate : pair.revokedAt with
    | none => rfl
    | some date =>
      have hkept := h.revokedAt (by rw [hdate]; rfl)
      simp [stored, hactive, hdate] at hkept
  · rintro ⟨hlabel, hjoin, hdate⟩
    refine ⟨rfl, rfl, filter_isEmpty_eq_self.mpr hlabel, filter_isEmpty_eq_self.mpr hjoin, rfl, ?_, ?_⟩
    · intro hsome
      obtain ⟨date, hget⟩ := Option.isSome_iff_exists.mp hsome
      simp [stored, hget]
    · intro hsome
      cases hrevoked : pair.revoked with
      | true => simp [stored, hrevoked]
      | false =>
        rw [hdate hrevoked] at hsome
        cases hsome

theorem forall₂_map_right {α : Type*} {R : α → α → Prop} (f : α → α) (l : List α) :
    List.Forall₂ R l (l.map f) ↔ ∀ a ∈ l, R a (f a) := by
  rw [forall₂_map_right_iff, forall₂_same]

end Canonical

/-! ## Older documents -/

section Legacy

/-- The keys at the places of an array: `""` where there is none. -/
def keyTexts (items : List Json) : List JSString :=
  items.map fun item => (asScalarString (some item)).getD ""

/-- A pair as it is read from an older document. -/
def devicePair (signingPublicKey encryptionPublicKey : JSString) : GrantKeyPair :=
  { signingPublicKey, encryptionPublicKey }

/-- How many different keys there are. -/
def distinctKeys (texts : List JSString) : ℕ :=
  (texts.filter fun s => !s.isEmpty).toFinset.card

/-- **Each signing key with the encryption key at its place**, the first place counting. -/
def alignedKeyPairs (texts : List (JSString × JSString)) : List GrantKeyPair :=
  texts.foldl (fun pairs text =>
    if text.1.isEmpty || pairs.any fun pair => pair.signingPublicKey = text.1 then pairs
    else pairs ++ [devicePair text.1 text.2]) []

/-- The signing key at place `i` first appears there, behind `k` others. -/
def FirstAt (texts : List (JSString × JSString)) (k i : ℕ) (text : JSString × JSString) : Prop :=
  texts[i]? = some text ∧ text.1.isEmpty = false ∧ text.1 ∉ (texts.take i).map Prod.fst ∧
    distinctKeys ((texts.take i).map Prod.fst) = k

/-- **The arrays lose nothing that shifts them against each other**: where a signing key first
appears behind `k` others, its encryption key first appears behind `k` others too, or is missing and
there are no more than `k` encryption keys at all. -/
def KeysLineUp (texts : List (JSString × JSString)) : Prop :=
  ∀ k i text, FirstAt texts k i text →
    if text.2.isEmpty then distinctKeys (texts.map Prod.snd) ≤ k
    else distinctKeys ((texts.map Prod.snd).takeWhile (· ≠ text.2)) = k

theorem asStringArray_array (items : List Json) :
    asStringArray (some (.array items)) = (keyTexts items).filter fun s => !s.isEmpty := by
  rw [asStringArray, Json.stringItems?, Json.asArray?, Option.map_some, Option.getD_some, keyTexts]
  induction items with
  | nil => rfl
  | cons item items ih =>
    rw [filterMap_cons, map_cons]
    cases hs : Json.asString? (some item) with
    | none =>
      have hempty : (asScalarString (some item)).getD "" = "" := by
        rw [asScalarString, hs]
        rfl
      rw [hempty]
      exact ih
    | some s =>
      simp only [asScalarString, hs, getD_filter_isEmpty]
      rw [filter_cons, filter_cons, ih]
      simp only [asScalarString]

theorem alignedKeyPairs_append_singleton (texts : List (JSString × JSString))
    (text : JSString × JSString) :
    alignedKeyPairs (texts ++ [text])
      = if text.1.isEmpty || (alignedKeyPairs texts).any fun pair => pair.signingPublicKey = text.1 then
          alignedKeyPairs texts
        else alignedKeyPairs texts
          ++ [devicePair text.1 text.2] := by
  rw [alignedKeyPairs, foldl_append, foldl_cons, foldl_nil]
  rfl

/-- The signing keys of the pairs are those that the code collects. -/
theorem map_signingPublicKey_alignedKeyPairs (texts : List (JSString × JSString)) :
    (alignedKeyPairs texts).map (·.signingPublicKey)
      = (ofList ((texts.map Prod.fst).filter fun s => !s.isEmpty)).toList := by
  induction texts using List.reverseRecOn with
  | nil => rfl
  | append_singleton texts text ih =>
    have hany : ((alignedKeyPairs texts).any fun pair => pair.signingPublicKey = text.1) = true
        ↔ text.1 ∈ (texts.map Prod.fst).filter fun s => !s.isEmpty := by
      rw [← mem_ofList, mem_def, ← ih, any_eq_true, mem_map]
      simp only [decide_eq_true_eq]
    rw [alignedKeyPairs_append_singleton, map_append, filter_append]
    by_cases hempty : text.1.isEmpty = true
    · simp [hempty, ih]
    · have hfilter : (List.map Prod.fst [text]).filter (fun s => !s.isEmpty) = [text.1] := by
        simp [hempty]
      rw [hfilter, toList_ofList_append_singleton]
      by_cases hold : text.1 ∈ (texts.map Prod.fst).filter fun s => !s.isEmpty
      · rw [if_pos hold, if_pos (by rw [hany.mpr hold, Bool.or_true]), ih]
      · have hnot : ((alignedKeyPairs texts).any fun pair => pair.signingPublicKey = text.1) = false :=
          Bool.eq_false_iff.mpr fun h => hold (hany.mp h)
        rw [if_neg hold, if_neg (by simp [hempty, hnot]), map_append, ih]
        rfl

theorem length_alignedKeyPairs (texts : List (JSString × JSString)) :
    (alignedKeyPairs texts).length = distinctKeys (texts.map Prod.fst) := by
  rw [← length_map (·.signingPublicKey), map_signingPublicKey_alignedKeyPairs,
    length_toList_ofList, distinctKeys]

theorem firstAt_append_singleton {texts : List (JSString × JSString)} {new text : JSString × JSString}
    {k i : ℕ} : FirstAt (texts ++ [new]) k i text ↔ FirstAt texts k i text ∨
      i = texts.length ∧ text = new ∧ new.1.isEmpty = false ∧ new.1 ∉ texts.map Prod.fst ∧
        distinctKeys (texts.map Prod.fst) = k := by
  rcases lt_trichotomy i texts.length with hlt | heq | hgt
  · have htake : (texts ++ [new]).take i = texts.take i := take_append_of_le_length hlt.le
    rw [FirstAt, FirstAt, htake, getElem?_append_left hlt]
    exact (or_iff_left fun h => hlt.ne h.1).symm
  · subst heq
    have htake : (texts ++ [new]).take texts.length = texts := by simp
    have hpast : texts[texts.length]? = none := getElem?_eq_none le_rfl
    rw [FirstAt, FirstAt, htake, hpast, getElem?_append_right le_rfl, Nat.sub_self]
    constructor
    · rintro ⟨hget, hrest⟩
      obtain rfl := Option.some.inj hget
      exact .inr ⟨rfl, rfl, hrest⟩
    · rintro (⟨hget, -⟩ | ⟨-, rfl, hrest⟩)
      · cases hget
      · exact ⟨rfl, hrest⟩
  · refine iff_of_false (fun h => ?_) ?_
    · have hnone : (texts ++ [new])[i]? = none := getElem?_eq_none (by
        rw [length_append, length_singleton]
        omega)
      rw [FirstAt, hnone] at h
      cases h.1
    · rintro (h | h)
      · rw [FirstAt, getElem?_eq_none hgt.le] at h
        cases h.1
      · exact hgt.ne' h.1

/-- **The pair at place `k`** is that of the signing key that first appears behind `k` others. -/
theorem getElem?_alignedKeyPairs {texts : List (JSString × JSString)} {k : ℕ} {pair : GrantKeyPair} :
    (alignedKeyPairs texts)[k]? = some pair ↔ ∃ i text, FirstAt texts k i text ∧
      pair = devicePair text.1 text.2 := by
  induction texts using List.reverseRecOn with
  | nil => simp [alignedKeyPairs, FirstAt]
  | append_singleton texts new ih =>
    have hany : ((alignedKeyPairs texts).any fun pair => pair.signingPublicKey = new.1) = true
        ↔ new.1.isEmpty = false ∧ new.1 ∈ texts.map Prod.fst := by
      have hmem : new.1 ∈ (alignedKeyPairs texts).map (·.signingPublicKey)
          ↔ new.1.isEmpty = false ∧ new.1 ∈ texts.map Prod.fst := by
        rw [map_signingPublicKey_alignedKeyPairs, ← mem_def, mem_ofList,
          mem_filter, Bool.not_eq_true', and_comm]
      rw [← hmem, any_eq_true, mem_map]
      simp only [decide_eq_true_eq]
    simp only [firstAt_append_singleton, or_and_right, exists_or, ← ih]
    rw [alignedKeyPairs_append_singleton]
    split
    · rename_i hskip
      refine (or_iff_left ?_).symm
      rintro ⟨i, text, ⟨-, -, hkey, hnew, -⟩, -⟩
      rw [hkey, Bool.false_or, hany] at hskip
      exact hnew hskip.2
    · rename_i hadd
      rw [Bool.or_eq_true, not_or, hany, not_and, Bool.not_eq_true] at hadd
      rw [getElem?_append, length_alignedKeyPairs]
      split
      · rename_i hk
        refine (or_iff_left ?_).symm
        rintro ⟨i, text, ⟨-, -, -, -, hcount⟩, -⟩
        omega
      · rename_i hk
        have hpast : (alignedKeyPairs texts)[k]? = none :=
          getElem?_eq_none (by rw [length_alignedKeyPairs]; omega)
        rw [hpast]
        constructor
        · intro h
          obtain ⟨hlt, hget⟩ := List.getElem?_eq_some_iff.mp h
          rw [length_singleton] at hlt
          rw [getElem_singleton] at hget
          exact .inr ⟨_, new, ⟨rfl, rfl, hadd.1, hadd.2 hadd.1, by omega⟩, hget.symm⟩
        · rintro (h | ⟨i, text, ⟨-, rfl, -, -, hcount⟩, rfl⟩)
          · cases h
          · rw [hcount, Nat.sub_self]
            rfl

/-- The keys of an array, each once. -/
abbrev keysOf (texts : List JSString) : List JSString :=
  (ofList (texts.filter fun s => !s.isEmpty)).toList

theorem takeWhile_filter_isEmpty {key : JSString} (hkey : key.isEmpty = false)
    (texts : List JSString) : (texts.filter fun s => !s.isEmpty).takeWhile (· ≠ key)
      = (texts.takeWhile (· ≠ key)).filter fun s => !s.isEmpty := by
  induction texts with
  | nil => rfl
  | cons text texts ih =>
    by_cases hsame : text = key
    · subst hsame
      simp [hkey]
    · rw [takeWhile_cons_of_pos (by simpa using hsame)]
      cases hempty : text.isEmpty with
      | true =>
        rw [filter_cons_of_neg (by simp [hempty]), filter_cons_of_neg (by simp [hempty]), ih]
      | false =>
        rw [filter_cons_of_pos (by simp [hempty]), filter_cons_of_pos (by simp [hempty]),
          takeWhile_cons_of_pos (by simpa using hsame), ih]

/-- **What stands at place `k` of the encryption keys**, for a key that is among them or missing. -/
theorem getD_keysOf_iff {texts : List JSString} {k : ℕ} {key : JSString} (hkey : key ∈ texts) :
    (keysOf texts)[k]?.getD "" = key ↔
      if key.isEmpty then distinctKeys texts ≤ k
      else distinctKeys (texts.takeWhile (· ≠ key)) = k := by
  have hnonempty : ∀ {other : JSString}, other ∈ keysOf texts → other.isEmpty = false := fun h => by
    have hmem := (mem_ofList.mp (mem_def.mpr h))
    simpa using (mem_filter.mp hmem).2
  cases hempty : key.isEmpty with
  | true =>
    have hkey' : key = "" := JSString.units_injective (List.isEmpty_iff.mp hempty)
    rw [if_pos rfl, distinctKeys, ← length_toList_ofList, ← List.getElem?_eq_none_iff]
    cases hget : (keysOf texts)[k]? with
    | none => simp [hkey']
    | some other =>
      have hother := hnonempty (mem_of_getElem? hget)
      refine iff_of_false (fun h => ?_) (by simp)
      rw [Option.getD_some] at h
      rw [h, hempty] at hother
      cases hother
  | false =>
    have hmem : key ∈ texts.filter fun s => !s.isEmpty := mem_filter.mpr ⟨hkey, by simp [hempty]⟩
    have hplace : (keysOf texts)[k]? = some key ↔ _ := getElem?_toList_ofList
    rw [distinctBefore, takeWhile_filter_isEmpty hempty] at hplace
    rw [if_neg (by simp), distinctKeys]
    rw [and_iff_right hmem] at hplace
    rw [← hplace]
    cases hget : (keysOf texts)[k]? with
    | none =>
      refine iff_of_false (fun h => ?_) (by simp)
      rw [Option.getD_none] at h
      rw [← h] at hempty
      cases hempty
    | some other => simp

variable {data : JsonObject} {signing encryption : List Json}

/-- The loop over different signing keys makes a pair of each. -/
theorem foldl_devicePair (keys : List JSString) {l : List (JSString × ℕ)}
    (hdistinct : (l.map Prod.fst).Nodup) (read : List GrantKeyPair)
    (hread : ∀ p ∈ l, p.1 ∉ read.map (·.signingPublicKey)) :
    l.foldl (fun pairs p =>
        if pairs.any fun pair => pair.signingPublicKey = p.1 then pairs
        else pairs ++ [devicePair p.1 (keys[p.2]?.getD "")]) read
      = read ++ l.map fun p => devicePair p.1 (keys[p.2]?.getD "") := by
  induction l generalizing read with
  | nil => simp
  | cons p l ih =>
    obtain ⟨hp, hl⟩ := nodup_cons.mp hdistinct
    have hfresh : (read.any fun pair => pair.signingPublicKey = p.1) = false := by
      rw [any_eq_false]
      intro other hother heq
      exact hread p mem_cons_self (mem_map.mpr ⟨other, hother, by simpa using heq⟩)
    rw [foldl_cons, hfresh, if_neg (by simp), ih hl, map_cons, append_assoc]
    · rfl
    · intro q hq hmem
      rw [map_append, mem_append] at hmem
      rcases hmem with hmem | hmem
      · exact hread q (mem_cons_of_mem _ hq) hmem
      · have heq : q.1 = p.1 := by simpa [devicePair] using hmem
        exact hp (mem_map.mpr ⟨q, hq, heq⟩)

theorem legacyKeys_eq_keysOf {field scalarField : JSString} {items : List Json}
    (hfield : data.field field = some (.array items)) :
    legacyKeys data field scalarField = keysOf (keyTexts items) := by
  rw [legacyKeys, hfield, if_pos (by rfl), asStringArray_array]

/-- The pairs of an older document, by number. -/
theorem getElem?_legacyKeyPairs
    (hsigning : data.field "userSigningPublicKeys" = some (.array signing))
    (hencryption : data.field "userEncryptionPublicKeys" = some (.array encryption)) (k : ℕ) :
    (legacyKeyPairs data)[k]? = (keysOf (keyTexts signing))[k]?.map fun signingPublicKey =>
      devicePair signingPublicKey ((keysOf (keyTexts encryption))[k]?.getD "") := by
  have hpairs : legacyKeyPairs data = (keysOf (keyTexts signing)).zipIdx.foldl (fun pairs p =>
      if pairs.any fun pair => pair.signingPublicKey = p.1 then pairs
      else pairs ++ [devicePair p.1 ((keysOf (keyTexts encryption))[p.2]?.getD "")]) [] := by
    rw [legacyKeyPairs, legacySigningKeys, legacyEncryptionKeys, legacyKeys_eq_keysOf hsigning,
      legacyKeys_eq_keysOf hencryption]
    rfl
  have hdistinct : ((keysOf (keyTexts signing)).zipIdx.map Prod.fst).Nodup := by
    rw [zipIdx_map_fst]
    exact (ofList _).nodup
  rw [hpairs, foldl_devicePair _ hdistinct [] (by simp), nil_append, getElem?_map,
    getElem?_zipIdx, Option.map_map]
  simp [Function.comp_def]

/-- **When an older document is read by index.** -/
theorem extractKeyPairs_eq_alignedKeyPairs_iff (hcanonical : hasCanonicalKeyLists data = false)
    (hsigning : data.field "userSigningPublicKeys" = some (.array signing))
    (hencryption : data.field "userEncryptionPublicKeys" = some (.array encryption))
    (hlength : signing.length = encryption.length) :
    extractKeyPairs data = alignedKeyPairs ((keyTexts signing).zip (keyTexts encryption))
      ↔ KeysLineUp ((keyTexts signing).zip (keyTexts encryption)) := by
  have hlength' : (keyTexts signing).length = (keyTexts encryption).length := by
    rw [keyTexts, keyTexts, length_map, length_map, hlength]
  have hfst : ((keyTexts signing).zip (keyTexts encryption)).map Prod.fst = keyTexts signing :=
    map_fst_zip hlength'.le
  have hsnd : ((keyTexts signing).zip (keyTexts encryption)).map Prod.snd = keyTexts encryption :=
    map_snd_zip hlength'.ge
  generalize htexts : (keyTexts signing).zip (keyTexts encryption) = texts at hfst hsnd ⊢
  rw [extractKeyPairs, if_neg (by simp [hcanonical])]
  have hplace : ∀ {k i text}, FirstAt texts k i text →
      (legacyKeyPairs data)[k]? = some
        (devicePair text.1 ((keysOf (keyTexts encryption))[k]?.getD "")) := by
    intro k i text hfirst
    have haligned := getElem?_alignedKeyPairs.mpr ⟨i, text, hfirst, rfl⟩
    have hkey : (keysOf (keyTexts signing))[k]? = some text.1 := by
      rw [keysOf, ← hfst, ← map_signingPublicKey_alignedKeyPairs, getElem?_map, haligned]
      rfl
    rw [getElem?_legacyKeyPairs hsigning hencryption, hkey, Option.map_some]
  have hmem : ∀ {k i text}, FirstAt texts k i text → text.2 ∈ keyTexts encryption := by
    intro k i text hfirst
    rw [← hsnd]
    exact mem_map_of_mem (mem_of_getElem? hfirst.1)
  constructor
  · intro heq k i text hfirst
    have haligned := getElem?_alignedKeyPairs.mpr ⟨i, text, hfirst, rfl⟩
    rw [← heq, hplace hfirst] at haligned
    have hencryption' := congrArg encryptionPublicKey (Option.some.inj haligned)
    rw [hsnd]
    exact (getD_keysOf_iff (hmem hfirst)).mp hencryption'
  · intro hline
    refine ext_getElem? fun k => ?_
    cases haligned : (alignedKeyPairs texts)[k]? with
    | none =>
      have hnone : (keysOf (keyTexts signing))[k]? = none := by
        rw [keysOf, ← hfst, ← map_signingPublicKey_alignedKeyPairs, getElem?_map, haligned]
        rfl
      rw [getElem?_legacyKeyPairs hsigning hencryption, hnone, Option.map_none]
    | some pair =>
      obtain ⟨i, text, hfirst, rfl⟩ := getElem?_alignedKeyPairs.mp haligned
      have htext := hline k i text hfirst
      rw [hsnd] at htext
      rw [hplace hfirst, (getD_keysOf_iff (hmem hfirst)).mpr htext]

end Legacy

/-! ## Storage as a whole -/

/-- **What survives storage**: the canonical lists keep every pair that is `Plain`, and no revoked key
grants access; an older document is read by index when its keys line up, and only then. -/
theorem grantKeyPairs_spec (data : JsonObject) :
    (∀ (now : GrantKeyPair → JsNumber) (pairs : List GrantKeyPair),
      (∀ pair ∈ pairs, pair.signingPublicKey.isEmpty = false) →
      (pairs.map (·.signingPublicKey)).Nodup →
      (List.Forall₂ SameAs
          ((pairs.filter fun pair => !pair.revoked) ++ pairs.filter fun pair => pair.revoked)
          (extractKeyPairs (applyKeyPairFields now data pairs))
        ↔ ∀ pair ∈ pairs, pair.Plain) ∧
      ∀ pair ∈ pairs, pair.revoked = true →
        pair.signingPublicKey ∉ extractSigningPublicKeys (applyKeyPairFields now data pairs) ∧
        pair.signingPublicKey
          ∉ (extractActiveKeyPairs (applyKeyPairFields now data pairs)).map (·.signingPublicKey))
    ∧ ∀ (signing encryption : List Json), hasCanonicalKeyLists data = false →
      data.field "userSigningPublicKeys" = some (.array signing) →
      data.field "userEncryptionPublicKeys" = some (.array encryption) →
      signing.length = encryption.length →
      (extractKeyPairs data = alignedKeyPairs ((keyTexts signing).zip (keyTexts encryption))
        ↔ KeysLineUp ((keyTexts signing).zip (keyTexts encryption))) := by
  refine ⟨fun now pairs hkeys hdistinct => ⟨?_, fun pair hpair hrevoked => ?_⟩,
    fun signing encryption hcanonical hsigning hencryption hlength =>
      extractKeyPairs_eq_alignedKeyPairs_iff hcanonical hsigning hencryption hlength⟩
  · obtain ⟨hactive, hrevoked⟩ := extractKeyPairs_applyKeyPairFields now data hkeys hdistinct
    have hall : ∀ pair, pair ∈ (pairs.filter fun pair => !pair.revoked)
        ++ (pairs.filter fun pair => pair.revoked) ↔ pair ∈ pairs := by
      intro pair
      rw [mem_append, mem_filter, mem_filter, ← and_or_left]
      cases pair.revoked <;> simp
    rw [extractKeyPairs, if_pos hasCanonicalKeyLists_applyKeyPairFields, hactive, hrevoked,
      ← map_append, forall₂_map_right]
    simp only [hall, sameAs_stored_iff]
  · have hactive := (extractKeyPairs_applyKeyPairFields now data hkeys hdistinct).1
    have hnotActive : pair.signingPublicKey
        ∉ (extractActiveKeyPairs (applyKeyPairFields now data pairs)).map (·.signingPublicKey) := by
      rw [extractActiveKeyPairs, if_pos hasCanonicalKeyLists_applyKeyPairFields, hactive, map_map]
      intro hmem
      obtain ⟨other, hother, hsame⟩ := mem_map.mp hmem
      obtain ⟨hotherIn, hotherActive⟩ := mem_filter.mp hother
      -- one signing key is one pair, which is revoked or not
      obtain rfl : other = pair := inj_on_of_nodup_map hdistinct hotherIn hpair hsame
      rw [hrevoked] at hotherActive
      cases hotherActive
    refine ⟨?_, hnotActive⟩
    rw [extractSigningPublicKeys, if_pos hasCanonicalKeyLists_applyKeyPairFields, ← mem_def,
      mem_ofList]
    exact hnotActive

/-- A document that is older than the canonical lists. -/
def legacyGrant (signing encryption : List Json) : JsonObject :=
  [("userSigningPublicKeys", .array signing), ("userEncryptionPublicKeys", .array encryption)]

/-- An active device and a revoked one. -/
def twoDevices : List GrantKeyPair :=
  [{ signingPublicKey := "s", encryptionPublicKey := "e" },
    { signingPublicKey := "t", encryptionPublicKey := "", label := some ("old" : JSString),
      revoked := true, revokedAt := some (some 7) }]

/-- Both are read back, and a device without encryption key behind one that has one. -/
theorem grantKeyPairs_spec_twoDevices :
    List.Forall₂ SameAs twoDevices
        (extractKeyPairs (applyKeyPairFields (fun _ => some 5) [] twoDevices)) ∧
      extractKeyPairs (legacyGrant [.string "s", .string "t"] [.string "e", .string ""])
        = [devicePair "s" "e", devicePair "t" ""] := by
  constructor
  · refine ((grantKeyPairs_spec []).1 (fun _ => some 5) twoDevices (by decide) (by decide)).1.mpr ?_
    intro pair hpair
    have hplain : ∀ pair ∈ twoDevices, pair.label ≠ some ("" : JSString) ∧
        pair.joinResponseWrapped ≠ some ("" : JSString) ∧
        (pair.revoked = false → pair.revokedAt = none) := by decide
    exact hplain pair hpair
  · refine ((grantKeyPairs_spec _).2 [.string "s", .string "t"] [.string "e", .string ""] (by rfl)
      (by rfl) (by rfl) (by rfl)).mpr ?_
    rintro k i text ⟨hget, -, -, hcount⟩
    match i with
    | 0 =>
      obtain rfl := Option.some.inj hget
      subst hcount
      decide
    | 1 =>
      obtain rfl := Option.some.inj hget
      subst hcount
      decide
    | i + 2 => cases hget

/-- **Devices that share an encryption key, or a device without one before one that has one**: the
second device loses its key, the first one is given that of another. -/
theorem extractKeyPairs_legacyGrant_misaligned :
    extractKeyPairs (legacyGrant [.string "s", .string "t"] [.string "e", .string "e"])
        ≠ alignedKeyPairs [("s", "e"), ("t", "e")] ∧
      extractKeyPairs (legacyGrant [.string "s", .string "t"] [.string "", .string "e"])
        = [devicePair "s" "e", devicePair "t" ""] := by
  decide +kernel

end MindooDB
