import MindooDB.Server.SystemIpAllowlist

/-!
# Server/AllowlistMeaning — what an allowlist says, and whether it is what is read of it

An entry denotes an address or a range, and admits the clients whose address that is or that are in
the range.  The list is read otherwise in two ways.  Addresses with zones are not read, so that any
two of them pass for equal.  And an IPv4 address that is written as IPv6 is read as IPv4 in one form
only, and only of the client.  `isClientIpAllowedForSystemList_iff` says when that matters.
-/

namespace MindooDB.SystemIpAllowlist

open Ip JSString List

/-! ## What the list says -/

/-- Decimal digits. -/
def isNumber (text : JSString) : Bool := !text.isEmpty && text.units.all (digitValue · < 10)

/-- An address, or an address and a number of bits within its range. -/
def isEntry (entry : JSString) : Bool :=
  match entry.indexOf "/" with
  | none => isIPv4 entry || isIPv6 entry
  | some slash =>
    let base := entry.take slash
    let bits := entry.drop (slash + 1)
    isNumber bits
      && (isIPv4 base && textValue 10 bits ≤ 32 || isIPv6 base && textValue 10 bits ≤ 128)

/-- **The texts of a range**, with the number of bits that its addresses share. -/
inductive RangeText : JSString → Address → ℕ → Prop
  | ipv4 (quad : Quad) {bits : JSString} (hbits : isNumber bits = true)
      (hle : textValue 10 bits ≤ 32) : RangeText (quad.text ++ (("/" : JSString) ++ bits))
        ⟨0xFFFF * 2 ^ 32 + quad.value, none⟩ (96 + textValue 10 bits)
  | ipv6 {base bits : JSString} {address : Address} (h : Denotes base address)
      (hbase : isIPv6 base = true) (hbits : isNumber bits = true)
      (hle : textValue 10 bits ≤ 128) :
      RangeText (base ++ (("/" : JSString) ++ bits)) address (textValue 10 bits)

/-- A range has the addresses of one zone that share its first bits. -/
def InRange (range : Address) (bits : ℕ) (address : Address) : Prop :=
  address.zone = range.zone
    ∧ address.number / 2 ^ (128 - bits) = range.number / 2 ^ (128 - bits)

/-- **An entry denotes the address of a client**, or a range that has it. -/
def Admits (entry client : JSString) : Prop :=
  ∃ address, Denotes client address ∧ (Denotes entry address
    ∨ ∃ range bits, RangeText entry range bits ∧ InRange range bits address)

/-- An entry that is written as IPv4 exactly if the client is, and is no range with a zone. -/
def Readable (client entry : JSString) : Prop :=
  isIPv4 client = isIPv4 ⟨entry.units.takeWhile (· ≠ 0x2F)⟩
    ∧ ¬ (entry.includes "/" = true ∧ entry.includes "%" = true)

/-- A client and an entry that is no range both have a zone. -/
def BothZoned (client entry : JSString) : Prop :=
  client.includes "%" = true ∧ entry.includes "%" = true ∧ entry.includes "/" = false

/-! ## Ranges -/

theorem slash_eq : (("/" : String) : JSString) = ⟨[0x2F]⟩ := by decide

theorem slash_notMem {s : JSString} {address : Address} (h : Denotes s address) :
    0x2F ∉ s.units := by
  cases h with
  | ipv4 quad =>
    exact fun hmem => nomatch all_eq_true.mp quad.text_units.2.2 _ hmem
  | ipv6 h => exact fun hmem => nomatch all_eq_true.mp h.units _ hmem
  | zoned h _ hzone =>
    intro hmem
    rw [units_zoned] at hmem
    rcases mem_append.mp hmem with hmem | hmem
    · exact nomatch all_eq_true.mp h.units _ hmem
    · rcases mem_cons.mp hmem with heq | hmem
      · exact nomatch heq
      · exact nomatch all_eq_true.mp hzone _ hmem

/-- An entry with a slash. -/
structure IsRange (entry base bits : JSString) : Prop where
  cut : ∃ slash, entry.indexOf "/" = some slash ∧ entry.take slash = base
    ∧ entry.drop (slash + 1) = bits
  isNumber : isNumber bits = true

theorem RangeText.slash_mem {entry : JSString} {range : Address} {n : ℕ}
    (h : RangeText entry range n) : 0x2F ∈ entry.units := by
  cases h with
  | ipv4 quad _ _ | ipv6 _ _ _ _ =>
    rw [slash_eq]
    exact mem_append_right _ (mem_append_left _ mem_cons_self)

section Ranges

variable {entry base bits : JSString}

section

variable (h : IsRange entry base bits)

include h

theorem IsRange.units :
    entry.units = base.units ++ 0x2F :: bits.units ∧ 0x2F ∉ base.units := by
  obtain ⟨slash, hindex, rfl, rfl⟩ := h.cut
  have hunit := indexOf_unit 0x2F entry
  rw [← slash_eq, hindex] at hunit
  exact hunit

theorem IsRange.includes : entry.includes "/" = true := by
  rw [slash_eq, includes_unit, h.units.1]
  exact mem_append_right _ mem_cons_self

theorem IsRange.eq_base :
    (⟨entry.units.takeWhile (· ≠ 0x2F)⟩ : JSString) = base := by
  refine units_injective ?_
  dsimp only
  rw [h.units.1]
  exact (takeWhile_separator h.units.2 _).1

theorem IsRange.parseInt :
    parseInt bits 10 = some (textValue 10 bits : ℤ) := by
  obtain ⟨hne, hdigits⟩ := Bool.and_eq_true_iff.mp h.isNumber
  refine parseInt_digits (by decide) ?_ hdigits
  rintro hnil
  rw [JSString.isEmpty, hnil] at hne
  exact Bool.noConfusion hne

/-- A range is cut in one way. -/
theorem IsRange.rangeText_iff {range : Address} {n : ℕ} :
    RangeText entry range n ↔
      (∃ quad : Quad, base = quad.text ∧ textValue 10 bits ≤ 32
        ∧ range = ⟨0xFFFF * 2 ^ 32 + quad.value, none⟩ ∧ n = 96 + textValue 10 bits)
      ∨ Denotes base range ∧ isIPv6 base = true ∧ textValue 10 bits ≤ 128
        ∧ n = textValue 10 bits := by
  obtain ⟨hunits, hbase⟩ := h.units
  have hentry : entry = base ++ (("/" : JSString) ++ bits) := by
    refine units_injective ?_
    rw [hunits, slash_eq]
    rfl
  have hparts {base' bits' : JSString} (hbase' : 0x2F ∉ base'.units)
      (heq : entry = base' ++ (("/" : JSString) ++ bits')) : base' = base ∧ bits' = bits := by
    have hunits' := congrArg JSString.units heq
    rw [hunits, slash_eq] at hunits'
    obtain ⟨hb, hn⟩ := separator_inj hbase hbase' hunits'
    exact ⟨(units_injective hb).symm, (units_injective hn).symm⟩
  constructor
  · intro hrange
    generalize hs : entry = s at hrange
    cases hrange with
    | ipv4 quad hbits hle =>
      obtain ⟨rfl, rfl⟩ := hparts (slash_notMem (.ipv4 quad)) hs
      exact .inl ⟨quad, rfl, hle, rfl, rfl⟩
    | ipv6 hdenotes hv6 hbits hle =>
      obtain ⟨rfl, rfl⟩ := hparts (slash_notMem hdenotes) hs
      exact .inr ⟨hdenotes, hv6, hle, rfl⟩
  · rw [hentry]
    rintro (⟨quad, rfl, hle, rfl, rfl⟩ | ⟨hdenotes, hv6, hle, rfl⟩)
    · exact .ipv4 quad h.isNumber hle
    · exact .ipv6 hdenotes hv6 h.isNumber hle

theorem IsRange.percent :
    entry.includes "%" = base.includes "%" := by
  have hbits : 0x25 ∉ bits.units := by
    intro hmem
    have hdigits := (Bool.and_eq_true_iff.mp h.isNumber).2
    exact nomatch all_eq_true.mp hdigits _ hmem
  rw [percent_eq, Bool.eq_iff_iff, includes_unit, includes_unit, h.units.1, mem_append, mem_cons]
  simp [hbits]

end

/-- **Ranges of IPv4 addresses.** -/
theorem ipv4MatchesCidr_iff {quad quad' : Quad} (h : IsRange entry quad'.text bits)
    (hle : textValue 10 bits ≤ 32) : ipv4MatchesCidr quad.text entry = true
      ↔ quad.value / 2 ^ (32 - textValue 10 bits) = quad'.value / 2 ^ (32 - textValue 10 bits) := by
  have hparse := h.parseInt
  obtain ⟨slash, hindex, htake, hdrop⟩ := h.cut
  obtain ⟨number, hnumber, hvalue⟩ := ipv4ToInt_text quad
  obtain ⟨number', hnumber', hvalue'⟩ := ipv4ToInt_text quad'
  unfold ipv4MatchesCidr
  rw [hindex]
  dsimp only
  rw [hdrop, hparse, htake, isIPv4_text, hnumber, hnumber', ← hvalue, ← hvalue',
    ← and_mask_eq_iff]
  dsimp only
  generalize textValue 10 bits = n at hle ⊢
  have hrange : (!true || decide ((n : ℤ) < 0) || decide ((n : ℤ) > 32)) = false := by
    rw [decide_eq_false (by omega), decide_eq_false (by omega)]
    rfl
  rw [hrange, if_neg Bool.false_ne_true]
  by_cases hzero : n = 0
  · subst hzero
    simp
  · have hmask : (if (n : ℤ) = 32 then 0xffffffff#32 else 0xffffffff#32 <<< (32 - (n : ℤ).toNat))
        = 0xffffffff#32 <<< (32 - n) := by
      rw [Int.toNat_natCast]
      split_ifs with hn
      · obtain rfl : n = 32 := by omega
        rfl
      · rfl
    rw [if_neg (by omega), hmask, decide_eq_true_eq]

theorem not_ipv4MatchesCidr {ip : JSString} (h : IsRange entry base bits)
    (hbase : isIPv4 base = false) : ipv4MatchesCidr ip entry = false := by
  have hparse := h.parseInt
  obtain ⟨slash, hindex, htake, hdrop⟩ := h.cut
  unfold ipv4MatchesCidr
  rw [hindex]
  dsimp only
  rw [hdrop, hparse, htake, hbase]
  rfl

/-- **Ranges of IPv6 addresses.** -/
theorem ipv6MatchesCidr_iff {ip : JSString} {m n : ℕ} (h : IsRange entry base bits)
    (hle : textValue 10 bits ≤ 128) (hbase : isIPv6 base = true) (hip : ipv6ToBigInt ip = some m)
    (hnumber : ipv6ToBigInt base = some n) (hm : m < 2 ^ 128) (hn : n < 2 ^ 128) :
    ipv6MatchesCidr ip entry = true
      ↔ m / 2 ^ (128 - textValue 10 bits) = n / 2 ^ (128 - textValue 10 bits) := by
  have hparse := h.parseInt
  obtain ⟨slash, hindex, htake, hdrop⟩ := h.cut
  unfold ipv6MatchesCidr
  rw [hindex]
  dsimp only
  rw [hdrop, hparse, htake, hbase, hip, hnumber]
  dsimp only
  generalize textValue 10 bits = k at hle ⊢
  have hrange : (!true || decide ((k : ℤ) < 0) || decide ((k : ℤ) > 128)) = false := by
    rw [decide_eq_false (by omega), decide_eq_false (by omega)]
    rfl
  rw [hrange, if_neg Bool.false_ne_true]
  by_cases hzero : k = 0
  · subst hzero
    rw [Nat.sub_zero, Nat.div_eq_of_lt hm, Nat.div_eq_of_lt hn]
    exact iff_of_true rfl rfl
  · rw [if_neg (by omega), Int.toNat_natCast, Nat.shiftRight_eq_div_pow,
      Nat.shiftRight_eq_div_pow, decide_eq_true_eq]

theorem not_ipv6MatchesCidr {ip : JSString} (h : IsRange entry base bits)
    (hnone : isIPv6 base = false ∨ ipv6ToBigInt ip = none ∨ ipv6ToBigInt base = none) :
    ipv6MatchesCidr ip entry = false := by
  have hparse := h.parseInt
  obtain ⟨slash, hindex, htake, hdrop⟩ := h.cut
  unfold ipv6MatchesCidr
  rw [hindex]
  dsimp only
  rw [hdrop, hparse, htake]
  dsimp only
  split
  · rfl
  · rename_i hin
    rw [Bool.or_eq_true, Bool.or_eq_true, not_or, not_or] at hin
    rcases hnone with hbase | hip | hbase
    · rw [hbase] at hin
      exact absurd rfl hin.1.1
    · rw [hip]
    · rw [hbase]
      cases ipv6ToBigInt ip with
      | none => rfl
      | some number => rfl

end Ranges

/-! ## Each entry -/

theorem isEntry_cases {entry : JSString} (h : isEntry entry = true) :
    (entry.includes "/" = false ∧ (isIPv4 entry = true ∨ isIPv6 entry = true))
      ∨ ∃ base bits, IsRange entry base bits
        ∧ ((∃ quad : Quad, base = quad.text) ∧ textValue 10 bits ≤ 32
          ∨ isIPv6 base = true ∧ textValue 10 bits ≤ 128) := by
  unfold isEntry at h
  have hunit := indexOf_unit 0x2F entry
  rw [← slash_eq] at hunit
  cases hindex : entry.indexOf "/" with
  | none =>
    rw [hindex] at h hunit
    refine .inl ⟨?_, Bool.or_eq_true_iff.mp h⟩
    rw [Bool.eq_false_iff, slash_eq]
    exact fun hmem => hunit (includes_unit.mp hmem)
  | some slash =>
    rw [hindex] at h
    dsimp only at h
    obtain ⟨hnumber, hbase⟩ := Bool.and_eq_true_iff.mp h
    refine .inr ⟨_, _, ⟨⟨slash, hindex, rfl, rfl⟩, hnumber⟩, ?_⟩
    rcases Bool.or_eq_true_iff.mp hbase with hbase | hbase
    · obtain ⟨hv4, hle⟩ := Bool.and_eq_true_iff.mp hbase
      exact .inl ⟨isIPv4_iff.mp hv4, of_decide_eq_true hle⟩
    · obtain ⟨hv6, hle⟩ := Bool.and_eq_true_iff.mp hbase
      exact .inr ⟨hv6, of_decide_eq_true hle⟩

section Entries

variable {client entry : JSString} {address : Address}

/-- What an entry that is an address admits. -/
theorem admits_address_iff {address' : Address} (hclient : Denotes client address)
    (hentry : Denotes entry address') (hslash : entry.includes "/" = false) :
    Admits entry client ↔ address' = address := by
  have hnone {range : Address} {n : ℕ} : ¬ RangeText entry range n := by
    intro hrange
    rw [Bool.eq_false_iff, slash_eq, ne_eq, includes_unit] at hslash
    exact hslash hrange.slash_mem
  constructor
  · rintro ⟨address'', hclient', hadmits | ⟨range, n, hrange, -⟩⟩
    · rw [denotes_unique hentry hadmits, denotes_unique hclient' hclient]
    · exact absurd hrange hnone
  · rintro rfl
    exact ⟨_, hclient, .inl hentry⟩

/-- What a range admits. -/
theorem admits_range_iff {base bits : JSString} (hclient : Denotes client address)
    (hrange : IsRange entry base bits) : Admits entry client ↔
      ∃ range n, RangeText entry range n ∧ InRange range n address := by
  constructor
  · rintro ⟨address', hclient', hdenotes | ⟨range, n, hrange', hin⟩⟩
    · refine absurd ?_ (slash_notMem hdenotes)
      rw [hrange.units.1]
      exact mem_append_right _ mem_cons_self
    · exact ⟨range, n, hrange', denotes_unique hclient' hclient ▸ hin⟩
  · exact fun h => ⟨address, hclient, .inr h⟩

theorem ReadAsIPv6.not_isIPv4 {s : JSString} (h : ReadAsIPv6 s address) : isIPv4 s = false :=
  not_isIPv4_of_colon (colon_mem_of_isIPv6 h.isIPv6)

theorem percent_text (quad : Quad) : quad.text.includes "%" = false := by
  rw [percent_eq, Bool.eq_false_iff, ne_eq, includes_unit]
  exact fun hmem => nomatch all_eq_true.mp quad.text_units.2.2 _ hmem

theorem text_eq_iff {quad quad' : Quad} : quad.text = quad'.text ↔ quad.value = quad'.value := by
  refine ⟨value_eq_of_text, fun h => ?_⟩
  obtain ⟨a, b, c, d⟩ := quad
  obtain ⟨a', b', c', d'⟩ := quad'
  unfold Quad.value at h
  dsimp only at h
  have ha : a = a' := by omega
  have hb : b = b' := by omega
  have hc : c = c' := by omega
  have hd : d = d' := by omega
  rw [ha, hb, hc, hd]

/-- **An entry that is an address.** -/
theorem entryMatches_address_iff {address' : Address} (hclient : Denotes client address)
    (hentry : Denotes entry address') (hslash : entry.includes "/" = false) :
    entryMatches client entry = true
      ↔ Admits entry client ∧ Readable client entry ∨ BothZoned client entry := by
  have hbase : (⟨entry.units.takeWhile (· ≠ 0x2F)⟩ : JSString) = entry := by
    refine units_injective (takeWhile_eq_self_iff.mpr fun unit hmem => ?_)
    rw [decide_eq_true_eq]
    rintro rfl
    exact slash_notMem hentry hmem
  have hreadable : Readable client entry ↔ isIPv4 client = isIPv4 entry := by
    rw [Readable, hbase, hslash]
    exact and_iff_left fun h => Bool.false_ne_true h.1
  have hboth : BothZoned client entry ↔ client.includes "%" = true ∧ entry.includes "%" = true := by
    rw [BothZoned, hslash]
    exact and_congr_right fun _ => and_iff_left rfl
  rw [admits_address_iff hclient hentry hslash, hreadable, hboth]
  unfold entryMatches
  rw [hslash, if_neg Bool.false_ne_true, Bool.or_eq_true, Bool.and_eq_true, Bool.and_eq_true,
    decide_eq_true_eq, decide_eq_true_eq]
  rcases denotes_cases hclient with ⟨quad, rfl, rfl⟩ | hread
  · rw [not_isIPv6_text, isIPv4_text, percent_text]
    rcases denotes_cases hentry with ⟨quad', rfl, rfl⟩ | hread'
    · have hvalues : (⟨0xFFFF * 2 ^ 32 + quad'.value, none⟩ : Address)
          = ⟨0xFFFF * 2 ^ 32 + quad.value, none⟩ ↔ quad.value = quad'.value := by
        rw [Address.mk.injEq, and_iff_left rfl, Nat.add_left_cancel_iff]
        exact eq_comm
      rw [isIPv4_text, text_eq_iff, hvalues]
      simp
    · have hne : quad.text ≠ entry := by
        rintro rfl
        exact absurd hread'.isIPv6 (Bool.eq_false_iff.mp (not_isIPv6_text quad))
      rw [hread'.not_isIPv4]
      simp [hne]
  · rw [hread.not_isIPv4, hread.isIPv6, hread.percent, hread.number]
    rcases denotes_cases hentry with ⟨quad', rfl, rfl⟩ | hread'
    · have hne : client ≠ quad'.text := by
        rintro rfl
        exact absurd hread.isIPv6 (Bool.eq_false_iff.mp (not_isIPv6_text quad'))
      rw [not_isIPv6_text, isIPv4_text, percent_text]
      simp [hne]
    · rw [hread'.not_isIPv4, hread'.isIPv6, hread'.percent, hread'.number]
      have hsame : client = entry → address' = address := by
        rintro rfl
        exact denotes_unique hentry hclient
      obtain ⟨number, zone⟩ := address
      obtain ⟨number', zone'⟩ := address'
      -- Two zones are both unread, and what is unread is equal.
      cases zone with
      | none =>
        cases zone' with
        | none =>
          constructor
          · rintro (heq | ⟨-, heq⟩)
            · exact .inl ⟨hsame heq, rfl⟩
            · have hnumber : number = number' := Option.some.inj heq
              exact .inl ⟨by rw [hnumber], rfl⟩
          · rintro (⟨heq, -⟩ | ⟨hzone, -⟩)
            · exact .inr ⟨⟨rfl, rfl⟩, congrArg some (congrArg Address.number heq).symm⟩
            · exact nomatch hzone
        | some zone' => simpa using hsame
      | some zone =>
        cases zone' with
        | none => simpa using hsame
        | some zone' => simp

theorem number_lt {s : JSString} (h : Denotes s address) : address.number < 2 ^ 128 := by
  have htext {s : JSString} {n : ℕ} (h : Ipv6Text s n) : n < 2 ^ 128 := by
    obtain ⟨parts, -, hlength, hlt, rfl⟩ := ipv6Parts_text h
    have hvalue := groupsValue_lt hlt
    rw [hlength] at hvalue
    exact hvalue
  cases h with
  | ipv4 quad =>
    have hvalue := Quad.value_lt quad
    dsimp only
    omega
  | ipv6 h => exact htext h
  | zoned h _ _ => exact htext h

/-- The addresses that share bits with an IPv4 address. -/
theorem mapped_div_iff {m n k : ℕ} (hk : k ≤ 32) :
    (0xFFFF * 2 ^ 32 + m) / 2 ^ (128 - (96 + k)) = (0xFFFF * 2 ^ 32 + n) / 2 ^ (128 - (96 + k))
      ↔ m / 2 ^ (32 - k) = n / 2 ^ (32 - k) := by
  have hshift : 128 - (96 + k) = 32 - k := by omega
  have hpow : 2 ^ 32 = 2 ^ k * 2 ^ (32 - k) := by rw [← Nat.pow_add, Nat.add_sub_cancel' hk]
  have hdiv (m : ℕ) : (0xFFFF * 2 ^ 32 + m) / 2 ^ (32 - k)
      = 0xFFFF * 2 ^ k + m / 2 ^ (32 - k) := by
    rw [hpow, ← Nat.mul_assoc, Nat.add_comm, Nat.add_mul_div_right _ _ (Nat.two_pow_pos _),
      Nat.add_comm]
  rw [hshift, hdiv, hdiv, Nat.add_left_cancel_iff]

section

variable (hclient : Denotes client address)

include hclient

/-- What a range of IPv4 addresses has. -/
theorem admits_ipv4Range_iff {quad : Quad} {bits : JSString} (hrange : IsRange entry quad.text bits)
    (hle : textValue 10 bits ≤ 32) : Admits entry client
      ↔ InRange ⟨0xFFFF * 2 ^ 32 + quad.value, none⟩ (96 + textValue 10 bits) address := by
  rw [admits_range_iff hclient hrange]
  constructor
  · rintro ⟨range, n, hrange', hin⟩
    rcases hrange.rangeText_iff.mp hrange' with ⟨quad', htext, -, rfl, rfl⟩ | ⟨-, hv6, -⟩
    · rw [value_eq_of_text htext]
      exact hin
    · rw [not_isIPv6_text] at hv6
      exact Bool.noConfusion hv6
  · exact fun hin => ⟨_, _, hrange.rangeText_iff.mpr (.inl ⟨quad, rfl, hle, rfl, rfl⟩), hin⟩

/-- What a range of IPv6 addresses has. -/
theorem admits_ipv6Range_iff {base bits : JSString} {range : Address}
    (hrange : IsRange entry base bits) (hbase : Denotes base range) (hv6 : isIPv6 base = true)
    (hle : textValue 10 bits ≤ 128) :
    Admits entry client ↔ InRange range (textValue 10 bits) address := by
  rw [admits_range_iff hclient hrange]
  constructor
  · rintro ⟨range', n, hrange', hin⟩
    rcases hrange.rangeText_iff.mp hrange' with ⟨quad, rfl, -⟩ | ⟨hbase', -, -, rfl⟩
    · rw [not_isIPv6_text] at hv6
      exact Bool.noConfusion hv6
    · rw [denotes_unique hbase hbase']
      exact hin
  · exact fun hin => ⟨_, _, hrange.rangeText_iff.mpr (.inr ⟨hbase, hv6, hle, rfl⟩), hin⟩

/-- **An entry that is a range.** -/
theorem entryMatches_range_iff {base bits : JSString} (hrange : IsRange entry base bits)
    (hbase : (∃ quad : Quad, base = quad.text) ∧ textValue 10 bits ≤ 32
      ∨ isIPv6 base = true ∧ textValue 10 bits ≤ 128) :
    entryMatches client entry = true
      ↔ Admits entry client ∧ Readable client entry ∨ BothZoned client entry := by
  have hboth : ¬ BothZoned client entry := fun h => by
    rw [BothZoned, hrange.includes] at h
    exact Bool.noConfusion h.2.2
  have hreadable : Readable client entry ↔
      isIPv4 client = isIPv4 base ∧ base.includes "%" = false := by
    rw [Readable, hrange.eq_base, hrange.includes, hrange.percent, Bool.eq_false_iff]
    exact and_congr_right fun _ => not_congr (and_iff_right rfl)
  rw [or_iff_left hboth, hreadable]
  unfold entryMatches
  rw [hrange.includes, if_pos rfl, Bool.or_eq_true, Bool.and_eq_true, Bool.and_eq_true]
  rcases hbase with ⟨⟨quad', rfl⟩, hle⟩ | ⟨hv6, hle⟩
  · rw [admits_ipv4Range_iff hclient hrange hle, isIPv4_text, percent_text]
    rcases denotes_cases hclient with ⟨quad, rfl, rfl⟩ | hread
    · rw [isIPv4_text, not_isIPv6_text, ipv4MatchesCidr_iff hrange hle, ← mapped_div_iff hle]
      simp [InRange]
    · rw [hread.not_isIPv4, not_ipv6MatchesCidr hrange (.inl (not_isIPv6_text quad'))]
      simp
  · obtain ⟨range, hrange'⟩ := exists_denotes_iff.mpr (.inr hv6)
    have hbase4 : isIPv4 base = false := not_isIPv4_of_colon (colon_mem_of_isIPv6 hv6)
    have hread' : ReadAsIPv6 base range := by
      rcases denotes_cases hrange' with ⟨quad, rfl, -⟩ | hread'
      · rw [isIPv4_text] at hbase4
        exact Bool.noConfusion hbase4
      · exact hread'
    rw [admits_ipv6Range_iff hclient hrange hrange' hv6 hle, hbase4, hread'.percent,
      not_ipv4MatchesCidr hrange hbase4]
    rcases denotes_cases hclient with ⟨quad, rfl, rfl⟩ | hread
    · rw [isIPv4_text, not_isIPv6_text]
      simp
    · rw [hread.not_isIPv4, hread.isIPv6]
      have hlt := number_lt hclient
      have hlt' := number_lt hrange'
      have hnumber := hread.number
      have hnumber' := hread'.number
      obtain ⟨number, zone⟩ := address
      obtain ⟨number', zone'⟩ := range
      cases zone' with
      | some zone' =>
        rw [not_ipv6MatchesCidr hrange (.inr (.inr hnumber'))]
        simp
      | none =>
        cases zone with
        | some zone =>
          rw [not_ipv6MatchesCidr hrange (.inr (.inl hnumber))]
          simp [InRange]
        | none =>
          rw [ipv6MatchesCidr_iff hrange hle hv6 hnumber hnumber' hlt hlt']
          simp [InRange]

/-- **An entry matches a client** that it admits, if it is read, and any client with a zone, if it
has one too. -/
theorem entryMatches_iff (hentry : isEntry entry = true) :
    entryMatches client entry = true
      ↔ Admits entry client ∧ Readable client entry ∨ BothZoned client entry := by
  rcases isEntry_cases hentry with ⟨hslash, haddress⟩ | ⟨base, bits, hrange, hbase⟩
  · obtain ⟨address', hdenotes⟩ := exists_denotes_iff.mpr haddress
    exact entryMatches_address_iff hclient hdenotes hslash
  · exact entryMatches_range_iff hclient hrange hbase

end

end Entries

/-! ## The list means what it says -/

/-- Some entry admits the client and is read, or an entry is taken for the client's because both
have a zone exactly if there is one that admits it. -/
def ReadAsWritten (client : JSString) (entries : List JSString) : Prop :=
  (∃ entry ∈ entries, Admits entry client ∧ Readable (normalizeClientIp client) entry)
    ∨ ((∃ entry ∈ entries, BothZoned (normalizeClientIp client) entry)
      ↔ ∃ entry ∈ entries, Admits entry client)

/-- **The allowlist means what it says** exactly for the clients and lists that are read as they
are written. -/
theorem isClientIpAllowedForSystemList_iff (clientIpRaw allowListRaw : JSString)
    (hclient : isIPv4 clientIpRaw.trim = true ∨ isIPv6 clientIpRaw.trim = true)
    (hentries : ∀ entry ∈ allowListEntries allowListRaw, isEntry entry = true) :
    (isClientIpAllowedForSystemList clientIpRaw allowListRaw = true
        ↔ ∃ entry ∈ allowListEntries allowListRaw, Admits entry clientIpRaw.trim)
      ↔ ReadAsWritten clientIpRaw.trim (allowListEntries allowListRaw) := by
  obtain ⟨address, hdenotes⟩ := exists_denotes_iff.mpr hclient
  have hnormal := denotes_normalizeClientIp hdenotes
  have hadmits (entry : JSString) :
      Admits entry (normalizeClientIp clientIpRaw.trim) ↔ Admits entry clientIpRaw.trim := by
    constructor
    · rintro ⟨address', hdenotes', h⟩
      exact ⟨address, hdenotes, denotes_unique hdenotes' hnormal ▸ h⟩
    · rintro ⟨address', hdenotes', h⟩
      exact ⟨address, hnormal, denotes_unique hdenotes' hdenotes ▸ h⟩
  have hallowed : isClientIpAllowedForSystemList clientIpRaw allowListRaw = true
      ↔ (∃ entry ∈ allowListEntries allowListRaw, Admits entry clientIpRaw.trim
          ∧ Readable (normalizeClientIp clientIpRaw.trim) entry)
        ∨ ∃ entry ∈ allowListEntries allowListRaw,
          BothZoned (normalizeClientIp clientIpRaw.trim) entry := by
    rw [isClientIpAllowedForSystemList, any_eq_true]
    constructor
    · rintro ⟨entry, hmem, hmatch⟩
      rw [entryMatches_iff hnormal (hentries entry hmem), hadmits] at hmatch
      rcases hmatch with hread | hboth
      · exact .inl ⟨entry, hmem, hread⟩
      · exact .inr ⟨entry, hmem, hboth⟩
    · rintro (⟨entry, hmem, hread⟩ | ⟨entry, hmem, hboth⟩)
      · refine ⟨entry, hmem, ?_⟩
        rw [entryMatches_iff hnormal (hentries entry hmem), hadmits]
        exact .inl hread
      · refine ⟨entry, hmem, ?_⟩
        rw [entryMatches_iff hnormal (hentries entry hmem)]
        exact .inr hboth
  have hadmitted : (∃ entry ∈ allowListEntries allowListRaw, Admits entry clientIpRaw.trim
      ∧ Readable (normalizeClientIp clientIpRaw.trim) entry)
      → ∃ entry ∈ allowListEntries allowListRaw, Admits entry clientIpRaw.trim :=
    fun ⟨entry, hmem, hread, _⟩ => ⟨entry, hmem, hread⟩
  rw [hallowed, ReadAsWritten]
  constructor
  · intro h
    by_cases hread : ∃ entry ∈ allowListEntries allowListRaw, Admits entry clientIpRaw.trim
        ∧ Readable (normalizeClientIp clientIpRaw.trim) entry
    · exact .inl hread
    · exact .inr ((or_iff_right hread).symm.trans h)
  · rintro (hread | hboth)
    · exact iff_of_true (.inl hread) (hadmitted hread)
    · exact ⟨fun h => h.elim hadmitted hboth.mp, fun h => .inr (hboth.mpr h)⟩

/-- A client in the only form that is normalised. -/
theorem isClientIpAllowedForSystemList_mappedClient :
    (isClientIpAllowedForSystemList "::ffff:10.1.2.3" "127.0.0.1, 10.0.0.0/8" = true
        ↔ ∃ entry ∈ allowListEntries "127.0.0.1, 10.0.0.0/8",
          Admits entry ("::ffff:10.1.2.3" : JSString).trim)
      ↔ ReadAsWritten ("::ffff:10.1.2.3" : JSString).trim
        (allowListEntries "127.0.0.1, 10.0.0.0/8") :=
  isClientIpAllowedForSystemList_iff _ _ (by decide +kernel) (by decide +kernel)

/-- The zone is what follows the percent sign. -/
theorem zone_of_denotes {s : JSString} {address : Address} (h : Denotes s address) :
    address.zone = (s.units.dropWhile (· ≠ 0x25)).tail?.map JSString.mk := by
  have hnone {s : JSString} (hpercent : 0x25 ∉ s.units) :
      (s.units.dropWhile (· ≠ 0x25)).tail?.map JSString.mk = none := by
    rw [dropWhile_eq_nil_iff.mpr]
    · rfl
    · intro unit hmem
      rw [decide_eq_true_eq]
      rintro rfl
      exact hpercent hmem
  cases h with
  | ipv4 quad =>
    refine (hnone fun hmem => ?_).symm
    exact nomatch all_eq_true.mp quad.text_units.2.2 _ hmem
  | ipv6 h => exact (hnone h.percent_notMem).symm
  | zoned h _ _ =>
    rw [units_zoned, (takeWhile_separator h.percent_notMem _).2]
    rfl

/-- Another address of another zone is let in, and a mapped address in upper case is not. -/
theorem not_isClientIpAllowedForSystemList_zoned :
    ¬ (isClientIpAllowedForSystemList "fe80::1%eth0" "fe80::2%eth1" = true
        ↔ ∃ entry ∈ allowListEntries "fe80::2%eth1", Admits entry ("fe80::1%eth0" : JSString).trim)
    ∧ ¬ (isClientIpAllowedForSystemList "::FFFF:127.0.0.1" "127.0.0.1" = true
        ↔ ∃ entry ∈ allowListEntries "127.0.0.1",
          Admits entry ("::FFFF:127.0.0.1" : JSString).trim) := by
  constructor
  · intro h
    obtain ⟨entry, hmem, address, hclient, hentry⟩ := h.mp (by decide +kernel)
    have hlist : allowListEntries "fe80::2%eth1" = ["fe80::2%eth1"] := by decide +kernel
    rw [hlist] at hmem
    obtain rfl := mem_singleton.mp hmem
    rcases hentry with hentry | ⟨range, n, hrange, -⟩
    · exact absurd ((zone_of_denotes hclient).symm.trans (zone_of_denotes hentry))
        (by decide +kernel)
    · exact absurd hrange.slash_mem (by decide +kernel)
  · intro h
    have htokens : GroupTexts ["FFFF", Quad.text ⟨127, 0, 0, 1⟩]
        (textValue 16 "FFFF" :: Quad.groups ⟨127, 0, 0, 1⟩) := .cons (by decide) (.quad _)
    have hleft : ∀ token ∈ ([] : List JSString), isHexGroup token = true :=
      fun _ hmem => absurd hmem not_mem_nil
    have hclient : Ipv6Text ("::FFFF:127.0.0.1" : JSString).trim (0xFFFF * 2 ^ 32 + 0x7F000001) :=
      .compressed hleft htokens (by decide)
    have hentry : Denotes "127.0.0.1" ⟨0xFFFF * 2 ^ 32 + 0x7F000001, none⟩ :=
      .ipv4 ⟨127, 0, 0, 1⟩
    have hallowed := h.mpr ⟨"127.0.0.1", by decide +kernel, _, .ipv6 hclient, .inl hentry⟩
    exact absurd hallowed (by decide +kernel)

end MindooDB.SystemIpAllowlist
