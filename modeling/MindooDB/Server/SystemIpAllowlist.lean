import MindooDB.Lib.IpNotation
import MindooDB.Sealed.UserNames

/-!
# Server/SystemIpAllowlist — who may reach the routes of the system admin

`node/server/SystemIpAllowlist.ts`: addresses are read by hand, IPv4 as 32 bits and IPv6 as 128, and
compared with the entries of a list, which are addresses or ranges.
-/

namespace MindooDB.SystemIpAllowlist

open Ip JSString List

/-! ## Numbers -/

/-- A sign, and what follows. -/
def readSign : List (Fin 65536) → ℤ × List (Fin 65536)
  | [] => (1, [])
  | unit :: rest =>
    if unit = 0x2D then (-1, rest) else if unit = 0x2B then (1, rest) else (1, unit :: rest)

/-- What follows `0x` or `0X`. -/
def skipHexPrefix (text : List (Fin 65536)) : List (Fin 65536) :=
  if text.take 2 = [0x30, 0x78] ∨ text.take 2 = [0x30, 0x58] then text.drop 2 else text

/-- `none` is `NaN`. -/
def parseInt (s : JSString) (radix : ℕ) : Option ℤ :=
  let (sign, text) := readSign (s.units.dropWhile isSpace)
  let text := if radix = 16 then skipHexPrefix text else text
  let digits := text.takeWhile (digitValue · < radix)
  if digits.isEmpty then none else some (sign * textValue radix ⟨digits⟩)

/-! ## IPv4 -/

/-- An IPv4 address mapped into IPv6 is taken for the IPv4 address, if it is dotted. -/
def normalizeClientIp (ip : JSString) : JSString :=
  if ip.startsWith "::ffff:" then
    let v4 := ip.drop 7
    if isIPv4 v4 then v4 else ip
  else ip

/-- The parts of an address, if there are four and none is `NaN`, below 0 or above 255. -/
def fourParts (ip : JSString) : Option (ℕ × ℕ × ℕ × ℕ) :=
  match (ip.split '.').map (parseInt · 10) with
  | [some a, some b, some c, some d] =>
    if [a, b, c, d].any fun n => n < 0 || n > 255 then none
    else some (a.toNat, b.toNat, c.toNat, d.toNat)
  | _ => none

/-- `none` is -1. -/
def ipv4ToInt (ip : JSString) : Option (BitVec 32) :=
  (fourParts ip).map fun (a, b, c, d) =>
    BitVec.ofNat 32 a <<< 24 ||| BitVec.ofNat 32 b <<< 16 ||| BitVec.ofNat 32 c <<< 8
      ||| BitVec.ofNat 32 d

/-- Whether an IPv4 address has the first bits of a range; no bits match every address. -/
def ipv4MatchesCidr (ip cidr : JSString) : Bool :=
  match cidr.indexOf "/" with
  | none => false
  | some slash =>
    let base := cidr.take slash
    match parseInt (cidr.drop (slash + 1)) 10 with
    | none => false
    | some bits =>
      if !isIPv4 base || bits < 0 || bits > 32 then false
      else
        match ipv4ToInt ip, ipv4ToInt base with
        | some ipNum, some baseNum =>
          if bits = 0 then true
          else
            let mask := if bits = 32 then 0xffffffff#32 else 0xffffffff#32 <<< (32 - bits.toNat)
            ipNum &&& mask = baseNum &&& mask
        | _, _ => false

def parseIpv4Parts (ip : JSString) : Option (ℕ × ℕ × ℕ × ℕ) :=
  if !isIPv4 ip then none else fourParts ip

/-! ## IPv6 -/

/-- The loop body of `parseIpv6SegmentList`. -/
def tokenSegments (token : JSString) : Option (List ℕ) :=
  if token.length = 0 then none
  else if token.includes "." then
    (parseIpv4Parts token).map fun (a, b, c, d) => [a <<< 8 ||| b, c <<< 8 ||| d]
  else if !isHexGroup token then none
  else (parseInt token 16).map fun n => [n.toNat]

def segmentsOf : List JSString → Option (List ℕ)
  | [] => some []
  | token :: tokens =>
    (tokenSegments token).bind fun segments => (segmentsOf tokens).map (segments ++ ·)

def parseIpv6SegmentList (part : JSString) : Option (List ℕ) :=
  if part.isEmpty then some [] else segmentsOf (part.split ':')

/-- The eight parts.  One piece: `::` is not in the text; two pieces: it is there once. -/
def ipv6Parts (ip : JSString) : Option (List ℕ) :=
  match ip.splitTwice ':' with
  | [_] => (parseIpv6SegmentList ip).filter fun parsed : List ℕ => parsed.length = 8
  | [leftRaw, rightRaw] =>
    match parseIpv6SegmentList leftRaw, parseIpv6SegmentList rightRaw with
    | some left, some right =>
      let missing := 8 - (left.length + right.length)
      if missing < 1 then none else some (left ++ List.replicate missing 0 ++ right)
    | _, _ => none
  | _ => none

/-- The number of an address. -/
def ipv6ToBigInt (ip : JSString) : Option ℕ :=
  if !isIPv6 ip then none
  else
    match ipv6Parts ip with
    | none => none
    | some parts =>
      if parts.length ≠ 8 || parts.any (· > 0xffff) then none
      else some (parts.foldl (fun result part => result <<< 16 ||| part) 0)

/-- Whether an IPv6 address has the first bits of a range. -/
def ipv6MatchesCidr (ip cidr : JSString) : Bool :=
  match cidr.indexOf "/" with
  | none => false
  | some slash =>
    let base := cidr.take slash
    match parseInt (cidr.drop (slash + 1)) 10 with
    | none => false
    | some bits =>
      if !isIPv6 base || bits < 0 || bits > 128 then false
      else
        match ipv6ToBigInt ip, ipv6ToBigInt base with
        | some ipNum, some baseNum =>
          if bits = 0 then true
          else
            let shift := 128 - bits.toNat
            ipNum >>> shift = baseNum >>> shift
        | _, _ => false

/-! ## The list -/

/-- The entries between the commas, trimmed, without the empty ones. -/
def allowListEntries (allowListRaw : JSString) : List JSString :=
  ((allowListRaw.split ',').map trim).filter fun entry => !entry.isEmpty

/-- The loop body of `isClientIpAllowedForSystemList`. -/
def entryMatches (clientIp entry : JSString) : Bool :=
  if entry.includes "/" then
    isIPv4 clientIp && ipv4MatchesCidr clientIp entry
      || isIPv6 clientIp && ipv6MatchesCidr clientIp entry
  else
    clientIp = entry
      || isIPv6 clientIp && isIPv6 entry && ipv6ToBigInt clientIp = ipv6ToBigInt entry

/-- Whether some entry matches the client. -/
def isClientIpAllowedForSystemList (clientIpRaw allowListRaw : JSString) : Bool :=
  let clientIp := normalizeClientIp clientIpRaw.trim
  (allowListEntries allowListRaw).any (entryMatches clientIp)

/-! ## Reading numbers -/

theorem digitValue_of_isSpace {unit : Fin 65536} (h : isSpace unit = true) :
    digitValue unit = 36 := by
  simp only [isSpace, Bool.or_eq_true, decide_eq_true_eq, mem_cons,
    not_mem_nil, or_false, Bool.and_eq_true] at h
  rw [digitValue, if_neg (by omega), if_neg (by omega), if_neg (by omega)]

theorem skipHexPrefix_of_digits {text : List (Fin 65536)} {radix : ℕ} (hradix : radix ≤ 16)
    (hdigits : ∀ unit ∈ text, digitValue unit < radix) : skipHexPrefix text = text := by
  have hx : digitValue 0x78 = 33 ∧ digitValue 0x58 = 33 := by decide
  refine if_neg ?_
  rintro (h | h)
  · have hmem : (0x78 : Fin 65536) ∈ text := take_subset 2 text (h ▸ by simp)
    have hvalue := hdigits _ hmem
    omega
  · have hmem : (0x58 : Fin 65536) ∈ text := take_subset 2 text (h ▸ by simp)
    have hvalue := hdigits _ hmem
    omega

variable {s : JSString}

/-- **Digits are read as they stand.** -/
theorem parseInt_digits {radix : ℕ} (hradix : radix ≤ 16) (hne : s.units ≠ [])
    (hdigits : s.units.all (digitValue · < radix) = true) :
    parseInt s radix = some (textValue radix s : ℤ) := by
  have hall := all_eq_true.mp hdigits
  have hvalue : ∀ unit ∈ s.units, digitValue unit < radix :=
    fun unit hmem => of_decide_eq_true (hall unit hmem)
  obtain ⟨unit, rest, hunits⟩ := exists_cons_of_ne_nil hne
  have hunit := hvalue unit (hunits ▸ mem_cons_self)
  have hspace : s.units.dropWhile isSpace = s.units := by
    rw [hunits, dropWhile_cons_of_neg]
    intro h
    have hspace := digitValue_of_isSpace h
    omega
  have hsign : readSign s.units = (1, s.units) := by
    have hvalues : digitValue 0x2D = 36 ∧ digitValue 0x2B = 36 := by decide
    rw [hunits, readSign, if_neg, if_neg]
    · rintro rfl
      omega
    · rintro rfl
      omega
  have htext : (if radix = 16 then skipHexPrefix s.units else s.units) = s.units := by
    rw [skipHexPrefix_of_digits hradix hvalue, ite_self]
  unfold parseInt
  rw [hspace, hsign]
  dsimp only
  rw [htext, takeWhile_eq_self_iff.mpr hall, List.isEmpty_eq_false_iff.mpr hne,
    Int.one_mul]
  rfl

/-! ## Reading IPv4 -/

theorem fourParts_text (quad : Quad) :
    fourParts quad.text = some (quad.a.val, quad.b.val, quad.c.val, quad.d.val) := by
  have hparse (n : Fin 256) : parseInt (ofNat n) 10 = some (n.val : ℤ) := by
    have hvalue : textValue 10 (ofNat n) = n := by
      revert n
      decide +kernel
    rw [parseInt_digits (by decide) (units_ofNat n).1 (units_ofNat n).2, hvalue]
  have hrange (n : Fin 256) : ((n.val : ℤ) < 0 || (n.val : ℤ) > 255) = false := by
    have hlt := n.isLt
    rw [Bool.or_eq_false_iff, decide_eq_false_iff_not, decide_eq_false_iff_not]
    omega
  unfold fourParts
  rw [quad.split_text, Quad.parts]
  simp only [map_cons, map_nil, hparse, any_cons, any_nil, hrange]
  rfl

theorem toNat_four {a b c d : ℕ} (ha : a < 256) (hb : b < 256) (hc : c < 256) (hd : d < 256) :
    (BitVec.ofNat 32 a <<< 24 ||| BitVec.ofNat 32 b <<< 16 ||| BitVec.ofNat 32 c <<< 8
      ||| BitVec.ofNat 32 d).toNat = ((a * 256 + b) * 256 + c) * 256 + d := by
  have hmod (n k : ℕ) (h : n * 2 ^ k < 2 ^ 32) : (BitVec.ofNat 32 n <<< k).toNat = n <<< k := by
    have hn : n < 2 ^ 32 := lt_of_le_of_lt (Nat.le_mul_of_pos_right n (Nat.two_pow_pos k)) h
    rw [BitVec.toNat_shiftLeft, BitVec.toNat_ofNat, Nat.mod_eq_of_lt hn, Nat.shiftLeft_eq,
      Nat.mod_eq_of_lt h]
  have hlast : (BitVec.ofNat 32 d).toNat = d := by
    rw [BitVec.toNat_ofNat, Nat.mod_eq_of_lt (by omega)]
  have hlow : c <<< 8 ||| d = c * 256 + d := by
    rw [← Nat.shiftLeft_add_eq_or_of_lt hd c, Nat.shiftLeft_eq]
  have hmiddle : b <<< 16 ||| (c * 256 + d) = b * 65536 + (c * 256 + d) := by
    rw [← Nat.shiftLeft_add_eq_or_of_lt (by omega) b, Nat.shiftLeft_eq]
  have hhigh : a <<< 24 ||| (b * 65536 + (c * 256 + d))
      = a * 16777216 + (b * 65536 + (c * 256 + d)) := by
    rw [← Nat.shiftLeft_add_eq_or_of_lt (by omega) a, Nat.shiftLeft_eq]
  rw [BitVec.toNat_or, BitVec.toNat_or, BitVec.toNat_or, hmod a 24 (by omega),
    hmod b 16 (by omega), hmod c 8 (by omega), hlast, Nat.or_assoc, Nat.or_assoc, hlow, hmiddle,
    hhigh]
  omega

theorem ipv4ToInt_text (quad : Quad) :
    ∃ number, ipv4ToInt quad.text = some number ∧ number.toNat = quad.value := by
  refine ⟨_, by rw [ipv4ToInt, fourParts_text]; rfl, ?_⟩
  exact toNat_four quad.a.isLt quad.b.isLt quad.c.isLt quad.d.isLt

/-- **A mask keeps the first bits.** -/
theorem and_mask_eq_iff (x y : BitVec 32) (k : ℕ) :
    x &&& (0xffffffff#32 <<< k) = y &&& (0xffffffff#32 <<< k)
      ↔ x.toNat / 2 ^ k = y.toNat / 2 ^ k := by
  have hones : 0xffffffff#32 = BitVec.allOnes 32 := by decide
  have hshift : x.toNat / 2 ^ k = y.toNat / 2 ^ k ↔ x >>> k = y >>> k := by
    rw [← BitVec.toNat_inj, BitVec.toNat_ushiftRight, BitVec.toNat_ushiftRight,
      Nat.shiftRight_eq_div_pow, Nat.shiftRight_eq_div_pow]
  rw [hshift, hones]
  constructor
  · intro h
    refine BitVec.eq_of_getLsbD_eq fun i hi => ?_
    have hbit := congrArg (BitVec.getLsbD · (k + i)) h
    simp only [BitVec.getLsbD_and, BitVec.getLsbD_shiftLeft, BitVec.getLsbD_allOnes,
      BitVec.getLsbD_ushiftRight] at hbit ⊢
    by_cases hk : k + i < 32
    · have hnot : ¬ k + i < k := by omega
      have hsub : k + i - k < 32 := by omega
      rw [decide_eq_true hk, decide_eq_false hnot, decide_eq_true hsub] at hbit
      simpa only [Bool.not_false, Bool.and_true] using hbit
    · rw [BitVec.getLsbD_of_ge _ _ (by omega), BitVec.getLsbD_of_ge _ _ (by omega)]
  · intro h
    refine BitVec.eq_of_getLsbD_eq fun i hi => ?_
    simp only [BitVec.getLsbD_and, BitVec.getLsbD_shiftLeft, BitVec.getLsbD_allOnes]
    by_cases hk : i < k
    · simp [hk]
    · have hbit := congrArg (BitVec.getLsbD · (i - k)) h
      simp only [BitVec.getLsbD_ushiftRight] at hbit
      rw [show k + (i - k) = i by omega] at hbit
      rw [hbit]

/-! ## Reading IPv6 -/

theorem tokenSegments_quad (quad : Quad) : tokenSegments quad.text = some quad.groups := by
  have hlength : quad.text.length ≠ 0 := fun h =>
    quad.text_units.1 (length_eq_zero_iff.mp h)
  have hdot : quad.text.includes "." = true := by
    rw [dot_eq, includes_unit]
    exact quad.text_units.2.1
  have hgroup (m n : Fin 256) : m.val <<< 8 ||| n.val = m * 256 + n := by
    rw [← Nat.shiftLeft_add_eq_or_of_lt n.isLt, Nat.shiftLeft_eq]
  rw [tokenSegments, if_neg hlength, if_pos hdot, parseIpv4Parts, isIPv4_iff.mpr ⟨quad, rfl⟩,
    fourParts_text]
  simp only [Bool.not_true, Bool.false_eq_true, if_false, Option.map_some, hgroup]
  rfl

variable {token : JSString} {tokens : List JSString} {address : Address}

theorem tokenSegments_hex (h : isHexGroup token = true) :
    tokenSegments token = some [textValue 16 token] := by
  obtain ⟨hpos, -, hall⟩ := isHexGroup_iff.mp h
  have hdot : token.includes "." = false := by
    rw [dot_eq, Bool.eq_false_iff, ne_eq, includes_unit]
    exact fun hmem => nomatch all_eq_true.mp hall _ hmem
  rw [tokenSegments, if_neg (by omega), hdot, h,
    parseInt_digits (le_refl _) (length_pos_iff.mp hpos) hall]
  rfl

theorem segmentsOf_groupTexts {groups : List ℕ}
    (h : GroupTexts tokens groups) : segmentsOf tokens = some groups := by
  induction h with
  | nil => rfl
  | quad quad =>
    rw [segmentsOf, tokenSegments_quad]
    exact congrArg some (append_nil _)
  | cons htoken _ ih =>
    rw [segmentsOf, tokenSegments_hex htoken, ih]
    rfl

theorem parseIpv6SegmentList_join {groups : List ℕ}
    (h : GroupTexts tokens groups) : parseIpv6SegmentList (join ":" tokens) = some groups := by
  have htokens := tokensOf_join h.isToken
  rw [tokensOf] at htokens
  unfold parseIpv6SegmentList
  split_ifs with hempty
  · rw [if_pos hempty] at htokens
    subst htokens
    cases h
    rfl
  · rw [if_neg hempty] at htokens
    rw [htokens]
    exact segmentsOf_groupTexts h

theorem foldl_groups {groups : List ℕ} (h : ∀ group ∈ groups, group < 65536) :
    groups.foldl (fun result part => result <<< 16 ||| part) 0 = groupsValue groups := by
  unfold groupsValue
  generalize 0 = n
  induction groups generalizing n with
  | nil => rfl
  | cons group groups ih =>
    obtain ⟨hgroup, hgroups⟩ := forall_mem_cons.mp h
    rw [foldl_cons, foldl_cons, ← Nat.shiftLeft_add_eq_or_of_lt hgroup,
      Nat.shiftLeft_eq]
    exact ih hgroups _

/-- The parts of the texts of an IPv6 address. -/
theorem ipv6Parts_text {s : JSString} {n : ℕ} (h : Ipv6Text s n) : ∃ parts, ipv6Parts s = some parts
    ∧ parts.length = 8 ∧ (∀ part ∈ parts, part < 65536) ∧ n = groupsValue parts := by
  unfold ipv6Parts
  cases h with
  | @full tokens groups h hlength =>
    refine ⟨groups, ?_, hlength, h.lt, rfl⟩
    rw [splitTwice_join_tokens h.isToken, parseIpv6SegmentList_join h]
    exact if_pos (decide_eq_true hlength)
  | @compressed left tokens groups hleft h hlength =>
    have hleft' := groupTexts_of_isHexGroup hleft
    refine ⟨_, ?_, ?_, fun part hmem => ?_, rfl⟩
    · rw [splitTwice_join_tokens_append hleft'.isToken h.isToken]
      dsimp only
      rw [parseIpv6SegmentList_join hleft', parseIpv6SegmentList_join h]
      dsimp only
      rw [length_map, if_neg (by omega)]
    · rw [length_append, length_append, length_map, length_replicate]
      omega
    · rcases mem_append.mp hmem with hmem | hmem
      · rcases mem_append.mp hmem with hmem | hmem
        · exact hleft'.lt part hmem
        · rw [eq_of_mem_replicate hmem]
          decide
      · exact h.lt part hmem

/-- **An IPv6 address is read as the number it denotes.** -/
theorem ipv6ToBigInt_text {n : ℕ} (h : Ipv6Text s n) : ipv6ToBigInt s = some n := by
  obtain ⟨parts, hparts, hlength, hlt, rfl⟩ := ipv6Parts_text h
  have hany : parts.any (· > 0xffff) = false := by
    refine any_eq_false.mpr fun part hmem => ?_
    have hpart := hlt part hmem
    rw [decide_eq_true_eq]
    omega
  unfold ipv6ToBigInt
  rw [isIPv6_iff.mpr (.inl ⟨_, h⟩), Bool.not_true, if_neg Bool.false_ne_true, hparts]
  dsimp only
  rw [hany, decide_eq_false (not_not.mpr hlength), Bool.or_false, if_neg Bool.false_ne_true,
    foldl_groups hlt]

/-- What has a percent sign is no token. -/
theorem tokenSegments_percent (h : 0x25 ∈ token.units) :
    tokenSegments token = none := by
  have hquad : isIPv4 token = false := by
    refine Bool.eq_false_iff.mpr fun hv4 => ?_
    obtain ⟨quad, rfl⟩ := isIPv4_iff.mp hv4
    exact nomatch all_eq_true.mp quad.text_units.2.2 _ h
  have hhex : isHexGroup token = false := by
    refine Bool.eq_false_iff.mpr fun hhex => ?_
    exact nomatch all_eq_true.mp (isHexGroup_iff.mp hhex).2.2 _ h
  rw [tokenSegments, parseIpv4Parts, hquad, hhex, Bool.not_false, if_pos rfl, if_pos rfl,
    Option.map_none, ite_self, ite_self]

theorem segmentsOf_percent (hmem : token ∈ tokens)
    (h : 0x25 ∈ token.units) : segmentsOf tokens = none := by
  induction tokens with
  | nil => exact nomatch hmem
  | cons head tokens ih =>
    rw [segmentsOf]
    rcases mem_cons.mp hmem with rfl | hmem
    · rw [tokenSegments_percent h]
      rfl
    · rw [ih hmem]
      cases tokenSegments head with
      | none => rfl
      | some segments => rfl

theorem parseIpv6SegmentList_percent {part : JSString} (h : 0x25 ∈ part.units) :
    parseIpv6SegmentList part = none := by
  have hne : part.isEmpty = false := List.isEmpty_eq_false_iff.mpr (ne_nil_of_mem h)
  have hjoin := join_split_unit part ':'
  rw [parseIpv6SegmentList, hne, if_neg Bool.false_ne_true]
  by_contra hsome
  have hall : ∀ token ∈ part.split ':', token.units.all (· ≠ 0x25) = true := by
    refine fun token hmem => all_eq_true.mpr fun unit hunit => ?_
    rw [decide_eq_true_eq]
    rintro rfl
    exact hsome (segmentsOf_percent hmem hunit)
  have hunits := all_units_join (by decide) hall
  rw [colon_eq, hjoin] at hunits
  exact nomatch all_eq_true.mp hunits _ h

/-- **A zone is not read.** -/
theorem ipv6ToBigInt_percent (h : 0x25 ∈ s.units) : ipv6ToBigInt s = none := by
  have hparts : ipv6Parts s = none := by
    unfold ipv6Parts
    split
    · rw [parseIpv6SegmentList_percent h]
      rfl
    · rename_i left right hpieces
      rw [eq_of_splitTwice_eq_pair hpieces, units_concat, units_concat, mem_append,
        mem_append] at h
      rcases h with h | h | h
      · rw [parseIpv6SegmentList_percent h]
      · exact nomatch h
      · rw [parseIpv6SegmentList_percent h]
        cases parseIpv6SegmentList left with
        | none => rfl
        | some segments => rfl
    · rfl
  rw [ipv6ToBigInt, hparts, ite_self]

/-! ## Kinds of texts -/

theorem isIPv4_text (quad : Quad) : isIPv4 quad.text = true := isIPv4_iff.mpr ⟨quad, rfl⟩

theorem not_isIPv4_of_colon (h : 0x3A ∈ s.units) : isIPv4 s = false := by
  refine Bool.eq_false_iff.mpr fun hv4 => ?_
  obtain ⟨quad, rfl⟩ := isIPv4_iff.mp hv4
  exact nomatch all_eq_true.mp quad.text_units.2.2 _ h

theorem colon_mem_of_isIPv6 (h : isIPv6 s = true) : 0x3A ∈ s.units := by
  rcases isIPv6_iff.mp h with ⟨n, htext⟩ | ⟨text, n, zone, htext, -, -, rfl⟩
  · exact htext.colon_mem
  · exact mem_append_left _ htext.colon_mem

theorem not_isIPv6_text (quad : Quad) : isIPv6 quad.text = false := by
  refine Bool.eq_false_iff.mpr fun h => ?_
  have hv4 := not_isIPv4_of_colon (colon_mem_of_isIPv6 h)
  rw [isIPv4_text] at hv4
  exact Bool.noConfusion hv4

/-- What is read of an IPv6 address. -/
structure ReadAsIPv6 (s : JSString) (address : Address) : Prop where
  isIPv6 : isIPv6 s = true
  percent : s.includes "%" = address.zone.isSome
  number : ipv6ToBigInt s = if address.zone.isSome then none else some address.number

/-- **An address is written as IPv4 or as IPv6.** -/
theorem denotes_cases (h : Denotes s address) :
    (∃ quad : Quad, s = quad.text ∧ address = ⟨0xFFFF * 2 ^ 32 + quad.value, none⟩)
      ∨ ReadAsIPv6 s address := by
  cases h with
  | ipv4 quad => exact .inl ⟨quad, rfl, rfl⟩
  | ipv6 h =>
    refine .inr ⟨isIPv6_iff.mpr (.inl ⟨_, h⟩), ?_, ipv6ToBigInt_text h⟩
    rw [percent_eq]
    exact Bool.eq_false_iff.mpr fun hmem => h.percent_notMem (includes_unit.mp hmem)
  | @zoned text zone number h hzone hunits =>
    have hpercent : 0x25 ∈ (text ++ (("%" : JSString) ++ zone)).units := by
      rw [percent_eq]
      exact mem_append_right _ (mem_append_left _ mem_cons_self)
    refine .inr ⟨isIPv6_iff.mpr (.inr ⟨_, _, _, h, hzone, hunits, rfl⟩), ?_, ?_⟩
    · nth_rewrite 2 [percent_eq]
      exact includes_unit.mpr hpercent
    · exact ipv6ToBigInt_percent hpercent

theorem value_eq_of_text {quad quad' : Quad} (h : quad.text = quad'.text) :
    quad.value = quad'.value := by
  obtain ⟨number, hnumber, hvalue⟩ := ipv4ToInt_text quad
  obtain ⟨number', hnumber', hvalue'⟩ := ipv4ToInt_text quad'
  rw [h, hnumber'] at hnumber
  rw [← hvalue, ← hvalue', Option.some.inj hnumber]

theorem units_zoned (text zone : JSString) :
    (text ++ (("%" : JSString) ++ zone)).units = text.units ++ 0x25 :: zone.units := by
  rw [percent_eq]
  rfl

/-- **A text denotes one address.** -/
theorem denotes_unique {address' : Address} (h : Denotes s address)
    (h' : Denotes s address') : address = address' := by
  rcases denotes_cases h with ⟨quad, rfl, rfl⟩ | hread
  · rcases denotes_cases h' with ⟨quad', htext, rfl⟩ | hread'
    · rw [value_eq_of_text htext]
    · exact absurd hread'.isIPv6 (Bool.eq_false_iff.mp (not_isIPv6_text quad))
  · generalize hs : s = s' at h'
    cases h with
    | ipv4 quad => exact absurd hread.isIPv6 (Bool.eq_false_iff.mp (not_isIPv6_text quad))
    | ipv6 h =>
      cases h' with
      | ipv4 quad =>
        exact absurd hread.isIPv6 (Bool.eq_false_iff.mp (hs ▸ not_isIPv6_text quad))
      | ipv6 h' =>
        rw [Option.some.inj ((ipv6ToBigInt_text h).symm.trans (hs ▸ ipv6ToBigInt_text h'))]
      | zoned h' _ _ =>
        refine absurd ?_ h.percent_notMem
        rw [hs, units_zoned]
        exact mem_append_right _ mem_cons_self
    | zoned h _ _ =>
      cases h' with
      | ipv4 quad =>
        exact absurd hread.isIPv6 (Bool.eq_false_iff.mp (hs ▸ not_isIPv6_text quad))
      | ipv6 h' =>
        refine absurd ?_ h'.percent_notMem
        rw [← hs, units_zoned]
        exact mem_append_right _ mem_cons_self
      | zoned h' _ _ =>
        have hunits := congrArg units hs
        rw [units_zoned, units_zoned] at hunits
        obtain ⟨htext, hzone⟩ := separator_inj h.percent_notMem h'.percent_notMem hunits
        obtain rfl := units_injective htext
        rw [units_injective hzone,
          Option.some.inj ((ipv6ToBigInt_text h).symm.trans (ipv6ToBigInt_text h'))]

theorem ipv6Text_mapped (quad : Quad) :
    Ipv6Text (("::ffff:" : JSString) ++ quad.text) (0xFFFF * 2 ^ 32 + quad.value) := by
  have htokens : GroupTexts ["ffff", quad.text] (textValue 16 "ffff" :: quad.groups) :=
    .cons (by decide) (.quad quad)
  have hleft : ∀ token ∈ ([] : List JSString), isHexGroup token = true :=
    nofun
  have htext := Ipv6Text.compressed hleft htokens (show 0 + 3 ≤ 7 by decide)
  have hunits : join ":" [] ++ (("::" : JSString) ++ join ":" [("ffff" : JSString), quad.text])
      = ("::ffff:" : JSString) ++ quad.text := by
    have hliterals : ("::" : JSString) = ⟨[0x3A, 0x3A]⟩
        ∧ ("ffff" : JSString) = ⟨[0x66, 0x66, 0x66, 0x66]⟩
        ∧ ("::ffff:" : JSString) = ⟨[0x3A, 0x3A, 0x66, 0x66, 0x66, 0x66, 0x3A]⟩ := by decide
    rw [hliterals.1, hliterals.2.1, hliterals.2.2, colon_eq]
    refine units_injective ?_
    change [0x3A, 0x3A, 0x66, 0x66, 0x66, 0x66] ++ ([0x3A] ++ quad.text.units ++ []) = _
    rw [append_nil]
    rfl
  have hvalue : groupsValue (List.map (textValue 16) []
      ++ List.replicate (8 - (([] : List JSString).length
        + (textValue 16 "ffff" :: quad.groups).length)) 0
      ++ (textValue 16 "ffff" :: quad.groups)) = 0xFFFF * 2 ^ 32 + quad.value := by
    have hffff : textValue 16 "ffff" = 0xFFFF := by decide
    rw [hffff]
    simp [groupsValue, Quad.groups, Quad.value]
    omega
  rw [hunits, hvalue] at htext
  exact htext

theorem eq_append_of_startsWith {s pre : JSString} (h : s.startsWith pre = true) :
    s = pre ++ s.drop pre.length := by
  obtain ⟨rest, hrest⟩ := isPrefixOf_iff_prefix.mp h
  have hs : s = pre ++ ⟨rest⟩ := units_injective hrest.symm
  rw [hs, JSString.drop_append]

/-- **The normalised text denotes the same address.** -/
theorem denotes_normalizeClientIp {ip : JSString} (h : Denotes ip address) :
    Denotes (normalizeClientIp ip) address := by
  unfold normalizeClientIp
  dsimp only
  split_ifs with hstart hv4
  · obtain ⟨quad, hquad⟩ := isIPv4_iff.mp hv4
    have hip := eq_append_of_startsWith hstart
    have hlength : ("::ffff:" : JSString).length = 7 := by decide
    rw [hlength, hquad] at hip
    have hmapped : Denotes ip ⟨0xFFFF * 2 ^ 32 + quad.value, none⟩ :=
      hip ▸ .ipv6 (ipv6Text_mapped quad)
    rw [hquad, denotes_unique h hmapped]
    exact .ipv4 quad
  · exact h
  · exact h

end MindooDB.SystemIpAllowlist
