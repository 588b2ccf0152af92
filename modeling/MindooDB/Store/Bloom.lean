import MindooDB.Lib.Base64

/-!
# Store/Bloom — Bloom filters over entry ids

`core/appendonlystores/bloom.ts`, its copy for browsers and `incrementalBloomUpdate` of
`browser/appendonlystores/IndexedDBContentAddressedStore.ts`.  A filter contains the ids it was made
of (`contains_createIdBloomSummary`) and keeps what it contains when ids are added
(`Contains.incrementalBloomUpdate`).

What the source computes with `Math.log` is a parameter: how many bits some ids need, how many hashes
go with them, and how many ids some bits are for.
-/

namespace MindooDB

open Base64 List Option

/-- The three roundings of `Math.log(p) / (ln2 * ln2)` and `ln2`. -/
structure BloomMath where
  /-- `Math.ceil((-itemCount * Math.log(falsePositiveRate)) / (ln2 * ln2))`. -/
  ceilBits : ℕ → ℕ
  /-- `Math.round((bitCount / itemCount) * ln2)`. -/
  roundHashes : ℕ → ℕ → ℕ
  /-- `Math.floor((-bitCount * ln2 * ln2) / Math.log(DEFAULT_FALSE_POSITIVE_RATE))`. -/
  floorItems : ℕ → ℕ

/-- The bits for some ids are for as many, give or take one. -/
def BloomMath.Inverse (math : BloomMath) : Prop :=
  ∀ itemCount, itemCount ≤ math.floorItems (max 64 (math.ceilBits itemCount)) + 1

structure StoreIdBloomSummary where
  version : JSString
  totalIds : ℕ
  bitCount : ℕ
  hashCount : ℕ
  salt : JSString
  bitsetBase64 : JSString
  deriving DecidableEq

def BLOOM_VERSION : JSString := "bloom-v1"

def DEFAULT_SALT : JSString := "mindoodb-bloom-v1"

def BLOOM_REBUILD_FACTOR : ℕ := 2

/-! ## Hashes and bits -/

def fnv1a32 (input : JSString) : UInt32 :=
  input.units.foldl (fun hash unit => (hash ^^^ UInt32.ofNat unit.val) * 0x01000193) 0x811c9dc5

def djb2_32 (input : JSString) : UInt32 :=
  input.units.foldl (fun hash unit => (hash <<< 5) + hash + UInt32.ofNat unit.val) 5381

/-- The bits of an id. -/
def bloomIndexes (id : JSString) (bitCount hashCount : ℕ) (salt : JSString) : List ℕ :=
  let h1 := fnv1a32 (salt ++ (":" : JSString) ++ id)
  let hash := djb2_32 (id ++ (":" : JSString) ++ salt)
  let h2 := if hash = 0 then 1 else hash
  (List.range hashCount).map fun i => (h1.toNat + i * h2.toNat) % bitCount

/-- The number of bits and of hashes. -/
def computeBloomShape (math : BloomMath) (itemCount : ℕ) : ℕ × ℕ :=
  if itemCount ≤ 0 then (64, 2)
  else
    let bitCount := max 64 (math.ceilBits itemCount)
    (bitCount, max 1 (math.roundHashes bitCount itemCount))

/-- `bitset[byteIndex] |= 1 << bitOffset`. -/
def setBit (bitset : List UInt8) (bitIndex : ℕ) : List UInt8 :=
  bitset.modify (bitIndex / 8) fun byte => UInt8.ofNat (byte.toNat ||| 1 <<< (bitIndex % 8))

/-- A byte out of range is 0. -/
def getBit (bitset : List UInt8) (bitIndex : ℕ) : Bool :=
  (bitset[bitIndex / 8]?.getD 0).toNat &&& 1 <<< (bitIndex % 8) ≠ 0

def setBits (bitset : List UInt8) (ids : List JSString) (bitCount hashCount : ℕ) (salt : JSString) :
    List UInt8 :=
  ids.foldl (fun bitset id => (bloomIndexes id bitCount hashCount salt).foldl setBit bitset) bitset

/-! ## Summaries -/

/-- The filter of a set of ids. -/
def createIdBloomSummary (math : BloomMath) (ids : List JSString) : StoreIdBloomSummary :=
  let (bitCount, hashCount) := computeBloomShape math ids.length
  { version := BLOOM_VERSION
    totalIds := ids.length
    bitCount
    hashCount
    salt := DEFAULT_SALT
    bitsetBase64 := btoa
      (setBits (List.replicate ((bitCount + 7) / 8) 0) ids bitCount hashCount DEFAULT_SALT) }

/-- `none` is an exception. -/
def bloomMightContainId (summary : StoreIdBloomSummary) (id : JSString) : Option Bool :=
  if summary.version ≠ BLOOM_VERSION then some true
  else
    (atob summary.bitsetBase64).map fun bitset =>
      (bloomIndexes id summary.bitCount summary.hashCount summary.salt).all (getBit bitset)

/-- How many ids a filter may hold. -/
def rebuildBound (math : BloomMath) (summary : StoreIdBloomSummary) : ℕ :=
  max 1 (math.floorItems summary.bitCount) * BLOOM_REBUILD_FACTOR

/-- `none` is an exception; `some none` asks to rebuild the filter. -/
def incrementalBloomUpdate (math : BloomMath) (summary : StoreIdBloomSummary)
    (newIds : List JSString) : Option (Option StoreIdBloomSummary) :=
  if newIds.length = 0 then some (some summary)
  else if summary.totalIds + newIds.length > rebuildBound math summary then some none
  else
    (atob summary.bitsetBase64).map fun bitset =>
      some { summary with
        totalIds := summary.totalIds + newIds.length
        bitsetBase64 := btoa
          (setBits bitset newIds summary.bitCount summary.hashCount summary.salt) }

/-! ## What a filter contains -/

@[simp] theorem length_setBit (bitset : List UInt8) (i : ℕ) :
    (setBit bitset i).length = bitset.length := length_modify _ _ _

variable {bitset : List UInt8}

theorem getBit_iff {i : ℕ} :
    getBit bitset i = true ↔ (bitset[i / 8]?.getD 0).toNat.testBit (i % 8) = true := by
  rw [getBit, decide_eq_true_eq, Nat.one_shiftLeft, Nat.and_comm, Nat.two_pow_and]
  cases (bitset[i / 8]?.getD 0).toNat.testBit (i % 8) <;> simp

theorem toNat_or_one_shiftLeft (byte : UInt8) (i : ℕ) :
    (UInt8.ofNat (byte.toNat ||| 1 <<< (i % 8))).toNat = byte.toNat ||| 2 ^ (i % 8) := by
  rw [UInt8.toNat_ofNat', Nat.one_shiftLeft]
  exact Nat.mod_eq_of_lt
    (Nat.or_lt_two_pow byte.toNat_lt (Nat.pow_lt_pow_right (by decide) (Nat.mod_lt _ (by decide))))

/-- A bit that was set stays set. -/
theorem getBit_setBit_of_getBit {i j : ℕ} (h : getBit bitset j = true) :
    getBit (setBit bitset i) j = true := by
  rw [getBit_iff] at h ⊢
  rw [setBit, getElem?_modify]
  split
  · rename_i heq
    rcases hbyte : bitset[j / 8]? with _ | byte
    · simp [hbyte] at h
    · rw [hbyte, getD_some] at h
      simp only [Option.map_eq_map, map_some, getD_some, toNat_or_one_shiftLeft,
        Nat.testBit_or, h, Bool.true_or]
  · simpa using h

theorem getBit_setBit_self {i : ℕ} (hi : i < 8 * bitset.length) :
    getBit (setBit bitset i) i = true := by
  have hindex : i / 8 < bitset.length := by omega
  rw [getBit_iff, setBit, getElem?_modify, getElem?_eq_getElem hindex]
  simp only [Option.map_eq_map, map_some, if_true, getD_some, toNat_or_one_shiftLeft,
    Nat.testBit_or, Nat.testBit_two_pow_self, Bool.or_true]

theorem length_foldl_setBit (indexes : List ℕ) (bitset : List UInt8) :
    (indexes.foldl setBit bitset).length = bitset.length := by
  induction indexes generalizing bitset with
  | nil => rfl
  | cons i indexes ih => rw [foldl_cons, ih, length_setBit]

theorem getBit_foldl_setBit {indexes : List ℕ} {j : ℕ}
    (h : getBit bitset j = true ∨ j ∈ indexes ∧ j < 8 * bitset.length) :
    getBit (indexes.foldl setBit bitset) j = true := by
  induction indexes generalizing bitset with
  | nil => exact h.resolve_right fun hmem => nomatch hmem.1
  | cons i indexes ih =>
    refine ih ?_
    rcases h with hset | ⟨hmem, hlt⟩
    · exact .inl (getBit_setBit_of_getBit hset)
    · rcases mem_cons.mp hmem with rfl | hmem
      · exact .inl (getBit_setBit_self hlt)
      · exact .inr ⟨hmem, by rwa [length_setBit]⟩

section Bits

variable {bitCount hashCount : ℕ} {salt : JSString}

theorem length_setBits (bitset : List UInt8) (ids : List JSString) :
    (setBits bitset ids bitCount hashCount salt).length = bitset.length := by
  rw [setBits]
  induction ids generalizing bitset with
  | nil => rfl
  | cons id ids ih => rw [foldl_cons, ih, length_foldl_setBit]

theorem lt_of_mem_bloomIndexes {id : JSString} (hbits : 0 < bitCount) {i : ℕ}
    (hi : i ∈ bloomIndexes id bitCount hashCount salt) : i < bitCount := by
  obtain ⟨k, -, rfl⟩ := List.mem_map.mp hi
  exact Nat.mod_lt _ hbits

theorem getBit_setBits_of_getBit {ids : List JSString} {j : ℕ}
    (h : getBit bitset j = true) : getBit (setBits bitset ids bitCount hashCount salt) j = true := by
  rw [setBits]
  induction ids generalizing bitset with
  | nil => exact h
  | cons id ids ih => exact ih (getBit_foldl_setBit (.inl h))

theorem getBit_setBits_of_mem {ids : List JSString} {id : JSString} {j : ℕ}
    (hbits : 0 < bitCount) (hsize : bitCount ≤ 8 * bitset.length) (hid : id ∈ ids)
    (hj : j ∈ bloomIndexes id bitCount hashCount salt) :
    getBit (setBits bitset ids bitCount hashCount salt) j = true := by
  induction ids generalizing bitset with
  | nil => exact nomatch hid
  | cons id' ids ih =>
    rcases mem_cons.mp hid with rfl | hid
    · rw [setBits, foldl_cons, ← setBits]
      exact getBit_setBits_of_getBit (getBit_foldl_setBit
        (.inr ⟨hj, (lt_of_mem_bloomIndexes hbits hj).trans_le hsize⟩))
    · refine ih ?_ hid
      rwa [length_foldl_setBit]

end Bits

/-- The version is known, and there are bytes for all bits. -/
structure StoreIdBloomSummary.Sound (summary : StoreIdBloomSummary) : Prop where
  version : summary.version = BLOOM_VERSION
  bits_pos : 0 < summary.bitCount
  bytes : ∃ bitset, atob summary.bitsetBase64 = some bitset
    ∧ summary.bitCount ≤ 8 * bitset.length

/-- **A filter contains an id**: it does not deny it. -/
def Contains (summary : StoreIdBloomSummary) (id : JSString) : Prop :=
  bloomMightContainId summary id = some true

variable {math : BloomMath} {summary summary' : StoreIdBloomSummary} {ids : List JSString}
  {id : JSString}

theorem contains_iff (hversion : summary.version = BLOOM_VERSION)
    (hbitset : atob summary.bitsetBase64 = some bitset) :
    Contains summary id ↔ ∀ i ∈ bloomIndexes id summary.bitCount summary.hashCount summary.salt,
      getBit bitset i = true := by
  rw [Contains, bloomMightContainId, if_neg (not_not.mpr hversion), hbitset, map_some,
    Option.some.injEq, List.all_eq_true]

theorem bitCount_computeBloomShape_pos (itemCount : ℕ) : 0 < (computeBloomShape math itemCount).1 := by
  rw [computeBloomShape]
  split
  · decide
  · exact lt_of_lt_of_le (by decide) (le_max_left _ _)

theorem le_eight_mul (bitCount : ℕ) : bitCount ≤ 8 * ((bitCount + 7) / 8) := by omega

theorem sound_createIdBloomSummary : (createIdBloomSummary math ids).Sound where
  version := rfl
  bits_pos := bitCount_computeBloomShape_pos _
  bytes := by
    refine ⟨_, atob_btoa _, ?_⟩
    rw [length_setBits, length_replicate]
    exact le_eight_mul (computeBloomShape math ids.length).1

/-- **A filter contains the ids it was made of.** -/
theorem contains_createIdBloomSummary (hid : id ∈ ids) : Contains (createIdBloomSummary math ids) id := by
  refine (contains_iff rfl (atob_btoa _)).mpr fun i hi => ?_
  refine getBit_setBits_of_mem (bitCount_computeBloomShape_pos _) ?_ hid hi
  rw [length_replicate]
  exact le_eight_mul (computeBloomShape math ids.length).1

/-- `createIdBloomSummary(ids, falsePositiveRate)`; `mathAt` rounds at each rate. -/
def createIdBloomSummaryAtRate (mathAt : ℚ → BloomMath) (ids : List JSString)
    (falsePositiveRate : ℚ) : StoreIdBloomSummary :=
  createIdBloomSummary (mathAt falsePositiveRate) ids

/-- **No false negatives**, whatever the rate, the number of bits and the number of hashes. -/
theorem bloomMightContainId_createIdBloomSummary (mathAt : ℚ → BloomMath) (ids : List JSString)
    (falsePositiveRate : ℚ) (id : JSString) (hid : id ∈ ids) :
    bloomMightContainId (createIdBloomSummaryAtRate mathAt ids falsePositiveRate) id = some true :=
  contains_createIdBloomSummary hid

/-- Ten bits and seven hashes for an id, as one in a hundred needs. -/
theorem bloomMightContainId_createIdBloomSummary_two :
    bloomMightContainId (createIdBloomSummaryAtRate
      (fun _ => ⟨fun itemCount => 10 * itemCount, fun _ _ => 7, fun bitCount => bitCount / 10⟩)
      ["doc1_c_a", "doc1_c_b"] (1 / 100)) "doc1_c_b" = some true :=
  bloomMightContainId_createIdBloomSummary _ _ _ _ (mem_cons_of_mem _ mem_cons_self)

theorem totalIds_createIdBloomSummary (hmath : math.Inverse) :
    (createIdBloomSummary math ids).totalIds ≤ rebuildBound math (createIdBloomSummary math ids) := by
  change ids.length ≤ max 1 (math.floorItems (computeBloomShape math ids.length).1) * 2
  rw [computeBloomShape]
  split
  · omega
  · have := hmath ids.length
    simp only
    omega

/-! ## Adding ids -/

/-- **An update** grows the filter, or leaves it as it is. -/
theorem incrementalBloomUpdate_spec
    (h : incrementalBloomUpdate math summary ids = some (some summary')) :
    ids = [] ∧ summary' = summary
      ∨ summary.totalIds + ids.length ≤ rebuildBound math summary
        ∧ ∃ bitset, atob summary.bitsetBase64 = some bitset
          ∧ summary' = { summary with
              totalIds := summary.totalIds + ids.length
              bitsetBase64 := btoa
                (setBits bitset ids summary.bitCount summary.hashCount summary.salt) } := by
  rw [incrementalBloomUpdate] at h
  split at h
  · rename_i hlength
    exact .inl ⟨eq_nil_of_length_eq_zero hlength, (some.inj (some.inj h)).symm⟩
  · split at h
    · exact nomatch h
    · rename_i hbound
      obtain ⟨bitset, hbitset, heq⟩ := map_eq_some_iff.mp h
      exact .inr ⟨by omega, bitset, hbitset, (some.inj heq).symm⟩

theorem StoreIdBloomSummary.Sound.incrementalBloomUpdate (hs : summary.Sound)
    (h : incrementalBloomUpdate math summary ids = some (some summary')) : summary'.Sound := by
  rcases incrementalBloomUpdate_spec h with ⟨-, rfl⟩ | ⟨-, bitset, hbitset, rfl⟩
  · exact hs
  · obtain ⟨bitset', hbitset', hsize⟩ := hs.bytes
    obtain rfl : bitset = bitset' := some.inj (hbitset.symm.trans hbitset')
    exact ⟨hs.version, hs.bits_pos, _, atob_btoa _, by rwa [length_setBits]⟩

/-- **An update keeps what a filter contains**, and adds the new ids. -/
theorem Contains.incrementalBloomUpdate (hs : summary.Sound)
    (h : incrementalBloomUpdate math summary ids = some (some summary'))
    (hid : Contains summary id ∨ id ∈ ids) : Contains summary' id := by
  rcases incrementalBloomUpdate_spec h with ⟨rfl, rfl⟩ | ⟨-, bitset, hbitset, rfl⟩
  · exact hid.resolve_right not_mem_nil
  · obtain ⟨bitset', hbitset', hsize⟩ := hs.bytes
    obtain rfl : bitset = bitset' := some.inj (hbitset.symm.trans hbitset')
    refine Iff.mpr (contains_iff (by exact hs.version) (atob_btoa _)) fun i hi => ?_
    rcases hid with hcontains | hid
    · exact getBit_setBits_of_getBit ((contains_iff hs.version hbitset).mp hcontains i hi)
    · exact getBit_setBits_of_mem hs.bits_pos hsize hid hi

theorem totalIds_incrementalBloomUpdate (hbound : summary.totalIds ≤ rebuildBound math summary)
    (h : MindooDB.incrementalBloomUpdate math summary ids = some (some summary')) :
    summary'.totalIds ≤ rebuildBound math summary' := by
  rcases incrementalBloomUpdate_spec h with ⟨-, rfl⟩ | ⟨hle, bitset, -, rfl⟩
  · exact hbound
  · exact hle

end MindooDB
