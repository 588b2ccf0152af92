import MindooDB.Directory.Types

/-!
# Directory/AclIds — the ids of the documents that govern access

`core/accesscontrol/types.ts`: an id is a prefix for its kind and an encoded component, a database
id, a rule id, a key id.  Small letters and digits stand for themselves, any other byte of the UTF-8
text is `_` and two hex digits.

The component is read back (`decodeAclIdComponent_encode`), so two documents share an id only if they
are of one kind and about one thing, even where ids are compared without regard to case
(`aclIdComponent_spec`).
-/

namespace MindooDB

open JSString List TextEncoding

/-! ## Components -/

/-- `byte >= 0x61 && byte <= 0x7a`, or a digit. -/
def isPlainByte (byte : ℕ) : Bool := (0x61 ≤ byte && byte ≤ 0x7A) || (0x30 ≤ byte && byte ≤ 0x39)

/-- A digit of `byte.toString(16)`. -/
def hexUnit (n : ℕ) : ℕ := if n < 10 then 0x30 + n else 0x61 + (n - 10)

/-- The units that stand for a byte. -/
def encodeAclIdByte (byte : ℕ) : List ℕ :=
  if isPlainByte byte then [byte] else [0x5F, hexUnit (byte / 16), hexUnit (byte % 16)]

def encodeAclIdComponent (raw : JSString) : JSString :=
  ofCodePoints ((encode raw).flatMap fun byte => encodeAclIdByte byte.toNat)

/-- `[a-z0-9_]`. -/
def isAclIdUnit (unit : ℕ) : Bool := isPlainByte unit || unit = 0x5F

/-- Small letters for capital ones. -/
def foldCase (s : JSString) : JSString :=
  ⟨s.units.map fun unit => if 0x41 ≤ unit.val ∧ unit.val ≤ 0x5A then unit + 0x20 else unit⟩

theorem mem_encodeAclIdByte {byte unit : ℕ} (hbyte : byte < 256) (h : unit ∈ encodeAclIdByte byte) :
    isAclIdUnit unit = true := by
  have hhex : ∀ n < 16, isAclIdUnit (hexUnit n) = true := by decide +kernel
  rw [encodeAclIdByte] at h
  split at h
  · rename_i hplain
    obtain rfl := mem_singleton.mp h
    rw [isAclIdUnit, hplain, Bool.true_or]
  · rcases mem_cons.mp h with rfl | h
    · rfl
    · rcases mem_cons.mp h with rfl | h
      · exact hhex _ (by omega)
      · obtain rfl := mem_singleton.mp h
        exact hhex _ (by omega)

theorem lt_of_isAclIdUnit {unit : ℕ} (h : isAclIdUnit unit = true) : unit < 0x80 := by
  simp only [isAclIdUnit, isPlainByte, Bool.or_eq_true, Bool.and_eq_true, decide_eq_true_eq] at h
  omega

/-- Code points of one unit each. -/
theorem val_units_ofCodePoints {codePoints : List ℕ} (h : ∀ n ∈ codePoints, n < 0x10000) :
    (ofCodePoints codePoints).units.map Fin.val = codePoints := by
  rw [ofCodePoints]
  induction codePoints with
  | nil => rfl
  | cons n codePoints ih =>
    obtain ⟨hn, hrest⟩ := forall_mem_cons.mp h
    have hval : (Fin.ofNat 65536 n).val = n := Nat.mod_eq_of_lt hn
    rw [flatMap_cons, encodeUtf16, if_pos hn, singleton_append, map_cons, hval]
    exact congrArg _ (ih hrest)

theorem mem_encodeAclIdComponent (raw : JSString) :
    ∀ unit ∈ (encode raw).flatMap fun byte => encodeAclIdByte byte.toNat,
      isAclIdUnit unit = true := by
  intro unit hunit
  obtain ⟨byte, -, hmem⟩ := mem_flatMap.mp hunit
  exact mem_encodeAclIdByte byte.toNat_lt hmem

theorem val_units_encodeAclIdComponent (raw : JSString) :
    (encodeAclIdComponent raw).units.map Fin.val
      = (encode raw).flatMap fun byte => encodeAclIdByte byte.toNat :=
  val_units_ofCodePoints fun unit hunit =>
    (lt_of_isAclIdUnit (mem_encodeAclIdComponent raw unit hunit)).trans (by decide)

/-! ## Reading a component -/

theorem parseHexByte_hexUnit : ∀ byte < 256,
    parseHexByte [hexUnit (byte / 16), hexUnit (byte % 16)] = byte := by decide +kernel

/-- **A byte is read from its units.** -/
theorem aclIdBytes_encodeAclIdByte {byte : ℕ} (hbyte : byte < 256) (rest : List ℕ) :
    aclIdBytes (encodeAclIdByte byte ++ rest) = byte :: aclIdBytes rest := by
  rw [encodeAclIdByte]
  split
  · rename_i hplain
    have hne : byte ≠ 0x5F := by
      rintro rfl
      exact nomatch hplain
    rw [singleton_append, aclIdBytes.eq_5 _ _ (by grind) (by grind) (by grind),
      Nat.mod_eq_of_lt hbyte]
  · rw [cons_append, cons_append, cons_append, nil_append, aclIdBytes,
      parseHexByte_hexUnit byte hbyte]

theorem aclIdBytes_flatMap (bytes : List UInt8) :
    aclIdBytes (bytes.flatMap fun byte => encodeAclIdByte byte.toNat) = bytes.map UInt8.toNat := by
  induction bytes with
  | nil => rfl
  | cons byte bytes ih =>
    rw [flatMap_cons, aclIdBytes_encodeAclIdByte byte.toNat_lt, ih, map_cons]

theorem aclIdBytes_encodeAclIdComponent (raw : JSString) :
    aclIdBytes ((encodeAclIdComponent raw).units.map Fin.val) = (encode raw).map UInt8.toNat := by
  rw [val_units_encodeAclIdComponent, aclIdBytes_flatMap]

/-- **A component is read back.** -/
theorem decodeAclIdComponent_encode {s : JSString} (hs : IsWellFormed s)
    (hmark : s.units.head? ≠ some 0xFEFF) :
    decodeAclIdComponent (encodeAclIdComponent s) = s := by
  rw [decodeAclIdComponent, aclIdBytes_encodeAclIdComponent, Utf8.decode_encode hs hmark]

example : encodeAclIdComponent "Sales-a_b" = "_53ales_2da_5fb" := by decide +kernel

theorem encodeAclIdComponent_injective {s t : JSString} (hs : IsWellFormed s)
    (ht : IsWellFormed t) (h : encodeAclIdComponent s = encodeAclIdComponent t) :
    s = t := by
  have hbytes := aclIdBytes_encodeAclIdComponent s
  rw [h, aclIdBytes_encodeAclIdComponent] at hbytes
  exact encode_injective hs ht
    (map_injective_iff.mpr (fun _ _ => UInt8.toNat.inj) hbytes).symm

/-! ## Document ids -/

/-- `CUSTOM_DOC_ID_REGEX`. -/
def isCustomDocId (id : JSString) : Bool :=
  match id.units.map Fin.val with
  | [] => false
  | unit :: rest => (0x61 ≤ unit && unit ≤ 0x7A) && rest.all isAclIdUnit

/-- `none` is an exception. -/
def assertValidDocId (id : JSString) : Option JSString := if isCustomDocId id then some id else none

/-- The kinds of documents that are about one thing each. -/
inductive AclDocKind where
  | dbPolicy
  | trustedWitness
  | rule
  | keyDistribution
  | appDistribution
  | syncSetupPolicy
  | docHistoryPurge
  deriving DecidableEq

def AclDocKind.idPrefix : AclDocKind → JSString
  | .dbPolicy => aclDbPolicyPrefix
  | .trustedWitness => "acl_trustedwitness_"
  | .rule => "acl_rule_"
  | .keyDistribution => "acl_keydistribution_"
  | .appDistribution => "acl_appdistribution_"
  | .syncSetupPolicy => "acl_syncsetuppolicy_"
  | .docHistoryPurge => "acl_dochistorypurge_"

/-- The id of a document of some kind. -/
def aclDocId (kind : AclDocKind) (component : JSString) : Option JSString :=
  assertValidDocId (kind.idPrefix ++ encodeAclIdComponent component)

def aclDbPolicyDocId (dbid : JSString) : Option JSString := aclDocId .dbPolicy dbid

def aclTrustedWitnessDocId (fingerprint : JSString) : Option JSString :=
  aclDocId .trustedWitness fingerprint

def aclRuleDocId (ruleId : JSString) : Option JSString := aclDocId .rule ruleId

def aclKeyDistributionDocId (keyId : JSString) : Option JSString := aclDocId .keyDistribution keyId

def aclAppDistributionDocId (appId : JSString) : Option JSString := aclDocId .appDistribution appId

def aclSyncSetupPolicyDocId (policyId : JSString) : Option JSString :=
  aclDocId .syncSetupPolicy policyId

def aclDocHistoryPurgeDocId (requestId : JSString) : Option JSString :=
  aclDocId .docHistoryPurge requestId

/-- A prefix is a valid id already. -/
theorem isCustomDocId_idPrefix (kind : AclDocKind) : isCustomDocId kind.idPrefix = true := by
  cases kind <;> decide +kernel

theorem isCustomDocId_append {s t : JSString} (hs : isCustomDocId s = true)
    (ht : ∀ unit ∈ t.units.map Fin.val, isAclIdUnit unit = true) : isCustomDocId (s ++ t) = true := by
  rw [isCustomDocId] at hs
  rw [isCustomDocId, units_append, map_append]
  split at hs
  · exact nomatch hs
  · rename_i unit rest heq
    obtain ⟨hunit, hrest⟩ := (Bool.and_eq_true _ _).mp hs
    simp only [heq, cons_append, hunit, Bool.true_and, all_append, hrest]
    exact all_eq_true.mpr ht

/-- **Every component gives an id.** -/
theorem aclDocId_eq (kind : AclDocKind) (component : JSString) :
    aclDocId kind component = some (kind.idPrefix ++ encodeAclIdComponent component) := by
  refine if_pos (isCustomDocId_append (isCustomDocId_idPrefix kind) fun unit hunit => ?_)
  rw [val_units_encodeAclIdComponent] at hunit
  exact mem_encodeAclIdComponent component unit hunit

/-- A text without capital letters. -/
theorem foldCase_of_isAclIdUnit {id : JSString} (h : ∀ unit ∈ id.units, isAclIdUnit unit.val = true) :
    foldCase id = id := by
  refine units_injective ((map_congr_left fun unit hunit => ?_).trans (map_id _))
  have hplain := h unit hunit
  simp only [isAclIdUnit, isPlainByte, Bool.or_eq_true, Bool.and_eq_true, decide_eq_true_eq] at hplain
  exact if_neg (by omega)

theorem isAclIdUnit_encodeAclIdComponent (s : JSString) :
    ∀ unit ∈ (encodeAclIdComponent s).units, isAclIdUnit unit.val = true := by
  intro unit hunit
  refine mem_encodeAclIdComponent s unit.val ?_
  rw [← val_units_encodeAclIdComponent]
  exact mem_map_of_mem hunit

theorem foldCase_encodeAclIdComponent (s : JSString) :
    foldCase (encodeAclIdComponent s) = encodeAclIdComponent s :=
  foldCase_of_isAclIdUnit (isAclIdUnit_encodeAclIdComponent s)

theorem foldCase_id (kind : AclDocKind) (component : JSString) :
    foldCase (kind.idPrefix ++ encodeAclIdComponent component)
      = kind.idPrefix ++ encodeAclIdComponent component := by
  refine foldCase_of_isAclIdUnit fun unit hunit => ?_
  have hkind : (kind.idPrefix.units.all fun unit => isAclIdUnit unit.val) = true := by
    cases kind <;> decide +kernel
  rw [units_append] at hunit
  exact (mem_append.mp hunit).elim (all_eq_true.mp hkind unit)
    (isAclIdUnit_encodeAclIdComponent component unit)

/-- No kind's prefix begins with another's. -/
theorem eq_of_idPrefix {kind kind' : AclDocKind} (h : kind.idPrefix.units <+: kind'.idPrefix.units) :
    kind = kind' := by
  revert h
  cases kind <;> cases kind' <;> decide +kernel

/-- An id tells its kind and its component. -/
theorem idPrefix_append_inj {kind kind' : AclDocKind} {s t : JSString}
    (h : kind.idPrefix ++ s = kind'.idPrefix ++ t) : kind = kind' ∧ s = t := by
  have hunits := congrArg units h
  rw [units_append, units_append] at hunits
  have hkind : kind = kind' := by
    rcases prefix_or_prefix_of_prefix (prefix_append _ s.units)
      (hunits ▸ prefix_append _ t.units) with hpre | hpre
    · exact eq_of_idPrefix hpre
    · exact (eq_of_idPrefix hpre).symm
  subst hkind
  exact ⟨rfl, units_injective (append_cancel_left hunits)⟩

/-- **Encoded components keep strings apart.**  What was encoded is read back, all of it is small
letters, digits and underscores, and neither two components nor two document ids agree without regard
to case unless they are of one string, and of one kind. -/
theorem aclIdComponent_spec :
    (∀ s, IsWellFormed s → s.units.head? ≠ some 0xFEFF →
        decodeAclIdComponent (encodeAclIdComponent s) = s)
      ∧ (∀ s, ∀ unit ∈ (encodeAclIdComponent s).units, isAclIdUnit unit.val = true)
      ∧ (∀ s t, IsWellFormed s → IsWellFormed t →
        foldCase (encodeAclIdComponent s) = foldCase (encodeAclIdComponent t) → s = t)
      ∧ ∀ kind kind' s t, IsWellFormed s → IsWellFormed t →
        ∃ id id', aclDocId kind s = some id ∧ aclDocId kind' t = some id'
          ∧ (foldCase id = foldCase id' → kind = kind' ∧ s = t) := by
  refine ⟨fun s hs hmark => decodeAclIdComponent_encode hs hmark, isAclIdUnit_encodeAclIdComponent,
    fun s t hs ht h => ?_, fun kind kind' s t hs ht => ?_⟩
  · rw [foldCase_encodeAclIdComponent, foldCase_encodeAclIdComponent] at h
    exact encodeAclIdComponent_injective hs ht h
  · refine ⟨_, _, aclDocId_eq kind s, aclDocId_eq kind' t, fun h => ?_⟩
    rw [foldCase_id, foldCase_id] at h
    obtain ⟨hkind, hcomponent⟩ := idPrefix_append_inj h
    exact ⟨hkind, encodeAclIdComponent_injective hs ht hcomponent⟩

end MindooDB
