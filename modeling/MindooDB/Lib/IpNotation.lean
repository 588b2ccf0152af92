import MindooDB.Lib.JSStringParts

/-!
# Lib/IpNotation — the texts of IP addresses

What a text denotes is said by a grammar: four decimal numbers with dots between them, or eight
groups of hex digits with colons between them, of which `::` leaves out one or more that are zero
and the last two may be written with dots.  A zone may follow.  `isIPv4` and `isIPv6` accept exactly
the texts of the grammar.

IPv4 addresses are those IPv6 addresses that are mapped from them.
-/

namespace Ip

open JSString

/-! ## Digits -/

/-- A digit in any radix up to 36; 36 is none. -/
def digitValue (unit : Fin 65536) : ℕ :=
  if 0x30 ≤ unit.val ∧ unit.val ≤ 0x39 then unit.val - 0x30
  else if 0x61 ≤ unit.val ∧ unit.val ≤ 0x7A then unit.val - 0x57
  else if 0x41 ≤ unit.val ∧ unit.val ≤ 0x5A then unit.val - 0x37
  else 36

def textValue (radix : ℕ) (text : JSString) : ℕ :=
  text.units.foldl (fun n unit => n * radix + digitValue unit) 0

/-- `[0-9a-fA-F]{1,4}`. -/
def isHexGroup (token : JSString) : Bool :=
  1 ≤ token.length && token.length ≤ 4 && token.units.all (digitValue · < 16)

/-! ## The grammar -/

/-- An IPv4 address. -/
structure Quad where
  a : Fin 256
  b : Fin 256
  c : Fin 256
  d : Fin 256
  deriving DecidableEq

namespace Quad

open JSString

def parts (quad : Quad) : List JSString :=
  [ofNat quad.a, ofNat quad.b, ofNat quad.c, ofNat quad.d]

def text (quad : Quad) : JSString := join "." quad.parts

def value (quad : Quad) : ℕ := ((quad.a * 256 + quad.b) * 256 + quad.c) * 256 + quad.d

/-- The two groups that a quad stands for. -/
def groups (quad : Quad) : List ℕ := [quad.a * 256 + quad.b, quad.c * 256 + quad.d]

end Quad

/-- Texts of groups; the last one may be a quad. -/
inductive GroupTexts : List JSString → List ℕ → Prop
  | nil : GroupTexts [] []
  | quad (quad : Quad) : GroupTexts [quad.text] quad.groups
  | cons {token : JSString} {tokens : List JSString} {groups : List ℕ}
      (htoken : isHexGroup token = true) (h : GroupTexts tokens groups) :
      GroupTexts (token :: tokens) (textValue 16 token :: groups)

def groupsValue (groups : List ℕ) : ℕ := groups.foldl (fun n group => n * 65536 + group) 0

/-- **The texts of an IPv6 address.** -/
inductive Ipv6Text : JSString → ℕ → Prop
  | full {tokens : List JSString} {groups : List ℕ} (h : GroupTexts tokens groups)
      (hlength : groups.length = 8) : Ipv6Text (join ":" tokens) (groupsValue groups)
  | compressed {left tokens : List JSString} {groups : List ℕ}
      (hleft : ∀ token ∈ left, isHexGroup token = true) (h : GroupTexts tokens groups)
      (hlength : left.length + groups.length ≤ 7) :
      Ipv6Text (join ":" left ++ (("::" : JSString) ++ join ":" tokens))
        (groupsValue (left.map (textValue 16)
          ++ List.replicate (8 - (left.length + groups.length)) 0 ++ groups))

/-- An address, in the numbers of IPv6. -/
structure Address where
  number : ℕ
  zone : Option JSString
  deriving DecidableEq

/-- `[0-9a-zA-Z-.:]`. -/
def isZoneUnit (unit : Fin 65536) : Bool :=
  digitValue unit < 36 || unit.val ∈ [0x2D, 0x2E, 0x3A]

/-- **The texts of an address.** -/
inductive Denotes : JSString → Address → Prop
  | ipv4 (quad : Quad) : Denotes quad.text ⟨0xFFFF * 2 ^ 32 + quad.value, none⟩
  | ipv6 {text : JSString} {number : ℕ} (h : Ipv6Text text number) : Denotes text ⟨number, none⟩
  | zoned {text zone : JSString} {number : ℕ} (h : Ipv6Text text number)
      (hzone : zone.isEmpty = false) (hunits : zone.units.all isZoneUnit = true) :
      Denotes (text ++ (("%" : JSString) ++ zone)) ⟨number, some zone⟩

/-! ## The tests -/

def isIPv4 (s : JSString) : Bool :=
  let parts := s.split '.'
  parts.length = 4 && parts.all fun part => (List.range 256).any fun n => ofNat n = part

/-- The texts between colons. -/
def tokensOf (part : JSString) : List JSString := if part.isEmpty then [] else part.split ':'

/-- How many groups some texts stand for. -/
def groupCount : List JSString → Option ℕ
  | [] => some 0
  | token :: tokens =>
    if isHexGroup token then (groupCount tokens).map (· + 1)
    else if tokens.isEmpty && isIPv4 token then some 2
    else none

def isIPv6Address (address : JSString) : Bool :=
  match address.splitTwice ':' with
  | [whole] => groupCount (tokensOf whole) = some 8
  | [left, right] =>
    (tokensOf left).all isHexGroup
      && (groupCount (tokensOf right)).any fun count => (tokensOf left).length + count ≤ 7
  | _ => false

def isIPv6 (s : JSString) : Bool :=
  let address : JSString := ⟨s.units.takeWhile (· ≠ 0x25)⟩
  match s.units.dropWhile (· ≠ 0x25) with
  | [] => isIPv6Address address
  | _ :: zone => isIPv6Address address && !zone.isEmpty && zone.all isZoneUnit

/-! ## Quads -/

theorem dot_eq : (("." : String) : JSString) = ⟨[Fin.ofNat _ '.'.toNat]⟩ := by decide

theorem colon_eq : ((":" : String) : JSString) = ⟨[Fin.ofNat _ ':'.toNat]⟩ := by decide

theorem colons_eq :
    (("::" : String) : JSString) = ⟨[Fin.ofNat _ ':'.toNat, Fin.ofNat _ ':'.toNat]⟩ := by decide

theorem percent_eq : (("%" : String) : JSString) = ⟨[0x25]⟩ := by decide

/-- Decimal texts have digits only. -/
theorem units_ofNat (n : Fin 256) : (ofNat n).units ≠ []
    ∧ (ofNat n).units.all (digitValue · < 10) = true := by
  revert n
  decide +kernel

theorem Quad.split_text (quad : Quad) : quad.text.split '.' = quad.parts := by
  rw [Quad.text, dot_eq]
  refine split_join_unit (List.cons_ne_nil _ _) fun part hpart hdot => ?_
  have hdigits (n : Fin 256) : Fin.ofNat 65536 '.'.toNat ∉ (ofNat n).units := by
    intro hmem
    have hdigit := List.all_eq_true.mp (units_ofNat n).2 _ hmem
    exact nomatch hdigit
  simp only [Quad.parts, List.mem_cons, List.not_mem_nil, or_false] at hpart
  rcases hpart with rfl | rfl | rfl | rfl
  · exact hdigits _ hdot
  · exact hdigits _ hdot
  · exact hdigits _ hdot
  · exact hdigits _ hdot

variable {s : JSString} {tokens : List JSString}

/-- **`isIPv4` accepts the texts of quads.** -/
theorem isIPv4_iff : isIPv4 s = true ↔ ∃ quad : Quad, s = quad.text := by
  constructor
  · intro h
    obtain ⟨hlength, hall⟩ := Bool.and_eq_true_iff.mp h
    have hjoin := join_split_unit s '.'
    obtain ⟨p, q, r, t, hparts⟩ := List.length_eq_four.mp (of_decide_eq_true hlength)
    have hoctet : ∀ part ∈ s.split '.', ∃ n : Fin 256, ofNat n = part := by
      intro part hpart
      obtain ⟨n, hn, heq⟩ := List.any_eq_true.mp (List.all_eq_true.mp hall part hpart)
      exact ⟨⟨n, List.mem_range.mp hn⟩, of_decide_eq_true heq⟩
    rw [hparts] at hoctet hjoin
    obtain ⟨a, rfl⟩ := hoctet p (by simp)
    obtain ⟨b, rfl⟩ := hoctet q (by simp)
    obtain ⟨c, rfl⟩ := hoctet r (by simp)
    obtain ⟨d, rfl⟩ := hoctet t (by simp)
    refine ⟨⟨a, b, c, d⟩, ?_⟩
    rw [Quad.text, dot_eq]
    exact hjoin.symm
  · rintro ⟨quad, rfl⟩
    have hoctet (n : Fin 256) : (List.range 256).any
        (fun m => ofNat m = ofNat n) = true :=
      List.any_eq_true.mpr ⟨n, List.mem_range.mpr n.isLt, decide_eq_true rfl⟩
    unfold isIPv4
    rw [quad.split_text]
    simp only [Quad.parts, List.length_cons, List.length_nil, List.all_cons, List.all_nil, hoctet]
    decide

theorem Quad.value_lt (quad : Quad) : quad.value < 2 ^ 32 := by
  have ha := quad.a.isLt
  have hb := quad.b.isLt
  have hc := quad.c.isLt
  have hd := quad.d.isLt
  rw [Quad.value]
  omega

/-! ## Groups -/

/-- What texts of groups consist of. -/
def isGroupUnit (unit : Fin 65536) : Bool := digitValue unit < 16 || unit = 0x2E

theorem Quad.text_units (quad : Quad) : quad.text.units ≠ [] ∧ 0x2E ∈ quad.text.units
    ∧ quad.text.units.all isGroupUnit = true := by
  have hoctet (n : Fin 256) : (ofNat n).units.all isGroupUnit = true := by
    revert n
    decide +kernel
  have hne := (units_ofNat quad.a).1
  have hdot : isGroupUnit 0x2E = true := by decide
  have hunits : quad.text.units = (ofNat quad.a).units
      ++ (0x2E :: (ofNat quad.b).units ++ (0x2E :: (ofNat quad.c).units
        ++ (0x2E :: (ofNat quad.d).units ++ []))) := by
    rw [Quad.text, dot_eq]
    rfl
  rw [hunits]
  refine ⟨by simp, by simp, ?_⟩
  simp only [List.all_append, List.all_cons, List.all_nil, hoctet, hdot, Bool.and_true]

variable {token : JSString} {groups : List ℕ}

theorem isHexGroup_iff : isHexGroup token = true
    ↔ 1 ≤ token.length ∧ token.length ≤ 4 ∧ token.units.all (digitValue · < 16) = true := by
  rw [isHexGroup, Bool.and_eq_true, Bool.and_eq_true, decide_eq_true_eq, decide_eq_true_eq,
    and_assoc]

theorem Quad.not_isHexGroup (quad : Quad) : isHexGroup quad.text = false := by
  refine Bool.eq_false_iff.mpr fun h => ?_
  have hdot := List.all_eq_true.mp (isHexGroup_iff.mp h).2.2 _ quad.text_units.2.1
  exact nomatch hdot

/-- A text of a group. -/
structure IsToken (token : JSString) : Prop where
  nonempty : token.units ≠ []
  units : token.units.all isGroupUnit = true

theorem isToken_of_isHexGroup (h : isHexGroup token = true) :
    IsToken token := by
  obtain ⟨hpos, -, hall⟩ := isHexGroup_iff.mp h
  refine ⟨List.length_pos_iff.mp hpos, List.all_eq_true.mpr fun unit hunit => ?_⟩
  exact Bool.or_eq_true_iff.mpr (.inl (List.all_eq_true.mp hall unit hunit))

theorem GroupTexts.isToken (h : GroupTexts tokens groups) : ∀ token ∈ tokens, IsToken token := by
  induction h with
  | nil => nofun
  | quad quad =>
    intro token hmem
    rw [List.mem_singleton.mp hmem]
    exact ⟨quad.text_units.1, quad.text_units.2.2⟩
  | cons htoken _ ih => exact List.forall_mem_cons.mpr ⟨isToken_of_isHexGroup htoken, ih⟩

theorem groupTexts_of_isHexGroup (h : ∀ token ∈ tokens, isHexGroup token = true) :
    GroupTexts tokens (tokens.map (textValue 16)) := by
  induction tokens with
  | nil => exact .nil
  | cons token tokens ih =>
    obtain ⟨htoken, htokens⟩ := List.forall_mem_cons.mp h
    exact .cons htoken (ih htokens)

theorem textValue_lt {radix : ℕ} {s : JSString} (h : s.units.all (digitValue · < radix) = true) :
    textValue radix s < radix ^ s.length := by
  suffices ∀ (units : List (Fin 65536)) (n : ℕ), (∀ unit ∈ units, digitValue unit < radix) →
      units.foldl (fun n unit => n * radix + digitValue unit) n < (n + 1) * radix ^ units.length by
    have hlt := this s.units 0 fun unit hmem => of_decide_eq_true (List.all_eq_true.mp h unit hmem)
    rw [Nat.zero_add, Nat.one_mul] at hlt
    exact hlt
  intro units
  induction units with
  | nil => exact fun n _ => by simp
  | cons unit units ih =>
    intro n hall
    obtain ⟨hunit, hunits⟩ := List.forall_mem_cons.mp hall
    rw [List.foldl_cons, List.length_cons, Nat.pow_succ', ← Nat.mul_assoc]
    refine lt_of_lt_of_le (ih _ hunits) (Nat.mul_le_mul_right _ ?_)
    rw [Nat.add_mul, Nat.one_mul]
    omega

/-- Each group has 16 bits. -/
theorem GroupTexts.lt (h : GroupTexts tokens groups) :
    ∀ group ∈ groups, group < 65536 := by
  induction h with
  | nil => nofun
  | quad quad =>
    have ha := quad.a.isLt
    have hb := quad.b.isLt
    have hc := quad.c.isLt
    have hd := quad.d.isLt
    intro group hmem
    rcases List.mem_cons.mp hmem with rfl | hmem
    · omega
    · rw [List.mem_singleton.mp hmem]
      omega
  | cons htoken _ ih =>
    refine List.forall_mem_cons.mpr ⟨?_, ih⟩
    obtain ⟨-, hle, hall⟩ := isHexGroup_iff.mp htoken
    exact lt_of_lt_of_le (textValue_lt hall) (Nat.pow_le_pow_right (by decide) hle)

theorem groupsValue_lt (h : ∀ group ∈ groups, group < 65536) :
    groupsValue groups < 65536 ^ groups.length := by
  suffices ∀ n : ℕ, groups.foldl (fun n group => n * 65536 + group) n
      < (n + 1) * 65536 ^ groups.length by
    have hlt := this 0
    rw [Nat.zero_add, Nat.one_mul] at hlt
    exact hlt
  induction groups with
  | nil => exact fun n => by simp
  | cons group groups ih =>
    intro n
    obtain ⟨hgroup, hgroups⟩ := List.forall_mem_cons.mp h
    rw [List.foldl_cons, List.length_cons, Nat.pow_succ', ← Nat.mul_assoc]
    exact lt_of_lt_of_le (ih hgroups _) (Nat.mul_le_mul_right _ (by omega))

/-- **`groupCount` counts the groups of the grammar.** -/
theorem groupCount_eq_some_iff {n : ℕ} : groupCount tokens = some n
    ↔ ∃ groups, GroupTexts tokens groups ∧ groups.length = n := by
  constructor
  · intro h
    induction tokens generalizing n with
    | nil => exact ⟨[], .nil, Option.some.inj h⟩
    | cons token tokens ih =>
      rw [groupCount] at h
      split_ifs at h with hhex hquad
      · obtain ⟨m, hm, rfl⟩ := Option.map_eq_some_iff.mp h
        obtain ⟨groups, hgroups, rfl⟩ := ih hm
        exact ⟨_, .cons hhex hgroups, rfl⟩
      · obtain ⟨hempty, hv4⟩ := Bool.and_eq_true_iff.mp hquad
        obtain ⟨quad, rfl⟩ := isIPv4_iff.mp hv4
        obtain rfl := List.isEmpty_iff.mp hempty
        exact ⟨_, .quad quad, Option.some.inj h⟩
  · rintro ⟨groups, hgroups, rfl⟩
    induction hgroups with
    | nil => rfl
    | quad quad =>
      rw [groupCount, quad.not_isHexGroup, isIPv4_iff.mpr ⟨quad, rfl⟩]
      rfl
    | cons htoken _ ih =>
      rw [groupCount, if_pos htoken, ih]
      rfl

/-! ## Texts between colons -/

theorem IsToken.notMem_colon (h : IsToken token) :
    Fin.ofNat _ ':'.toNat ∉ token.units := by
  intro hmem
  exact nomatch List.all_eq_true.mp h.units _ hmem

theorem tokensOf_join (h : ∀ token ∈ tokens, IsToken token) :
    tokensOf (join ":" tokens) = tokens := by
  cases tokens with
  | nil => rfl
  | cons token tokens =>
    have hne : (join ":" (token :: tokens)).isEmpty = false := by
      have hunits := (h token List.mem_cons_self).nonempty
      rw [isEmpty, List.isEmpty_eq_false_iff, join]
      exact List.append_ne_nil_of_left_ne_nil hunits _
    rw [tokensOf, hne, colon_eq]
    exact split_join_unit (List.cons_ne_nil _ _) fun part hpart => (h part hpart).notMem_colon

theorem join_tokensOf (part : JSString) : join ":" (tokensOf part) = part := by
  unfold tokensOf
  split_ifs with hempty
  · exact units_injective (List.isEmpty_iff.mp hempty).symm
  · rw [colon_eq]
    exact join_split_unit part ':'

theorem splitTwice_join_tokens (h : ∀ token ∈ tokens, IsToken token) :
    (join ":" tokens).splitTwice ':' = [join ":" tokens] := by
  cases tokens with
  | nil => rfl
  | cons token tokens =>
    rw [colon_eq]
    exact splitTwice_join (List.cons_ne_nil _ _)
      fun part hpart => ⟨(h part hpart).nonempty, (h part hpart).notMem_colon⟩

theorem splitTwice_join_tokens_append {left tokens : List JSString}
    (hleft : ∀ token ∈ left, IsToken token) (h : ∀ token ∈ tokens, IsToken token) :
    (join ":" left ++ (("::" : JSString) ++ join ":" tokens)).splitTwice ':'
      = [join ":" left, join ":" tokens] := by
  have hright := splitTwice_join_tokens h
  rw [colon_eq] at hright ⊢
  rw [colons_eq, splitTwice_join_append
    (fun part hpart => ⟨(hleft part hpart).nonempty, (hleft part hpart).notMem_colon⟩), hright]

/-- **`isIPv6Address` accepts the texts of the grammar.** -/
theorem isIPv6Address_iff : isIPv6Address s = true ↔ ∃ n, Ipv6Text s n := by
  constructor
  · intro h
    unfold isIPv6Address at h
    split at h
    · rename_i whole hpieces
      obtain ⟨groups, hgroups, hlength⟩ := groupCount_eq_some_iff.mp (of_decide_eq_true h)
      obtain rfl := eq_of_splitTwice_eq_singleton hpieces
      have hfull := Ipv6Text.full hgroups hlength
      rw [join_tokensOf] at hfull
      exact ⟨_, hfull⟩
    · rename_i left right hpieces
      obtain ⟨hleft, hright⟩ := Bool.and_eq_true_iff.mp h
      cases hcount : groupCount (tokensOf right) with
      | none =>
        rw [hcount] at hright
        exact nomatch hright
      | some count =>
        rw [hcount] at hright
        obtain ⟨groups, hgroups, rfl⟩ := groupCount_eq_some_iff.mp hcount
        have hcompressed := Ipv6Text.compressed (List.all_eq_true.mp hleft) hgroups
          (of_decide_eq_true hright)
        rw [join_tokensOf, join_tokensOf, colons_eq, ← eq_of_splitTwice_eq_pair hpieces]
          at hcompressed
        exact ⟨_, hcompressed⟩
    · exact nomatch h
  · rintro ⟨n, htext⟩
    cases htext with
    | full h hlength =>
      rw [isIPv6Address, splitTwice_join_tokens h.isToken]
      dsimp only
      rw [tokensOf_join h.isToken]
      exact decide_eq_true (groupCount_eq_some_iff.mpr ⟨_, h, hlength⟩)
    | compressed hleft h hlength =>
      have hleft' := fun token hmem => isToken_of_isHexGroup (hleft token hmem)
      rw [isIPv6Address, splitTwice_join_tokens_append hleft' h.isToken]
      dsimp only
      rw [tokensOf_join hleft', tokensOf_join h.isToken,
        groupCount_eq_some_iff.mpr ⟨_, h, rfl⟩]
      exact Bool.and_eq_true_iff.mpr ⟨List.all_eq_true.mpr hleft, decide_eq_true hlength⟩

/-! ## Zones -/

theorem units_concat (s t : JSString) : (s ++ t).units = s.units ++ t.units := rfl

theorem all_units_join {p : Fin 65536 → Bool} (hcolon : p 0x3A = true) {tokens : List JSString}
    (h : ∀ token ∈ tokens, token.units.all p = true) : (join ":" tokens).units.all p = true := by
  cases tokens with
  | nil => rfl
  | cons token tokens =>
    obtain ⟨htoken, htokens⟩ := List.forall_mem_cons.mp h
    rw [join, colon_eq]
    dsimp only
    rw [List.all_append, htoken, List.all_flatMap, Bool.true_and]
    refine List.all_eq_true.mpr fun token' hmem => ?_
    rw [List.all_append, htokens token' hmem, Bool.and_true]
    exact Bool.and_eq_true_iff.mpr ⟨hcolon, rfl⟩

/-- What an IPv6 address is written with. -/
theorem Ipv6Text.units {n : ℕ} (h : Ipv6Text s n) :
    s.units.all (fun unit => isGroupUnit unit || unit = 0x3A) = true := by
  have htokens {tokens : List JSString} (h : ∀ token ∈ tokens, IsToken token) :
      (join ":" tokens).units.all (fun unit => isGroupUnit unit || unit = 0x3A) = true := by
    refine all_units_join (by decide) fun token hmem => List.all_eq_true.mpr fun unit hunit => ?_
    exact Bool.or_eq_true_iff.mpr (.inl (List.all_eq_true.mp (h token hmem).units unit hunit))
  cases h with
  | full h _ => exact htokens h.isToken
  | compressed hleft h _ =>
    rw [units_concat, units_concat, List.all_append, List.all_append, htokens h.isToken,
      htokens fun token hmem => isToken_of_isHexGroup (hleft token hmem)]
    decide

/-- An IPv6 address has a colon. -/
theorem Ipv6Text.colon_mem {n : ℕ} (h : Ipv6Text s n) : 0x3A ∈ s.units := by
  cases h with
  | @full tokens groups h hlength =>
    cases h with
    | nil => exact nomatch hlength
    | quad quad => exact absurd hlength (by simp [Quad.groups])
    | cons htoken h =>
      cases h with
      | nil => exact nomatch hlength
      | quad quad => exact absurd hlength (by simp [Quad.groups])
      | cons htoken' h =>
        rw [join, colon_eq]
        exact List.mem_append_right _ (List.mem_append_left _ List.mem_cons_self)
  | compressed hleft h hlength =>
    rw [units_concat, units_concat, colons_eq]
    exact List.mem_append_right _ (List.mem_append_left _ List.mem_cons_self)

theorem Ipv6Text.percent_notMem {n : ℕ} (h : Ipv6Text s n) : 0x25 ∉ s.units :=
  fun hmem => nomatch List.all_eq_true.mp h.units _ hmem

/-- **`isIPv6` accepts the texts of IPv6 addresses**, with a zone or without. -/
theorem isIPv6_iff {s : JSString} : isIPv6 s = true ↔ (∃ n, Ipv6Text s n)
    ∨ ∃ text n zone, Ipv6Text text n ∧ zone.isEmpty = false ∧ zone.units.all isZoneUnit = true
      ∧ s = text ++ (("%" : JSString) ++ zone) := by
  constructor
  · intro h
    unfold isIPv6 at h
    dsimp only at h
    have hunits := List.takeWhile_append_dropWhile (p := (· ≠ (0x25 : Fin 65536))) (l := s.units)
    have hhead := List.head?_dropWhile_not (· ≠ (0x25 : Fin 65536)) s.units
    split at h
    · rename_i hnone
      rw [hnone, List.append_nil] at hunits
      rw [hunits] at h
      exact .inl (isIPv6Address_iff.mp h)
    · rename_i unit zone hdrop
      rw [hdrop] at hunits hhead
      obtain rfl : unit = 0x25 := by simpa using hhead
      rw [Bool.and_eq_true, Bool.and_eq_true, isIPv6Address_iff] at h
      obtain ⟨⟨⟨n, htext⟩, hne⟩, hzone⟩ := h
      refine .inr ⟨_, n, ⟨zone⟩, htext, (Bool.not_eq_true' _).mp hne, hzone, ?_⟩
      exact units_injective (percent_eq ▸ hunits.symm)
  · rintro (⟨n, htext⟩ | ⟨text, n, zone, htext, hne, hzone, rfl⟩)
    · have hall : ∀ unit ∈ s.units, decide (unit ≠ 0x25) = true := by
        intro unit hmem
        rw [decide_eq_true_eq]
        rintro rfl
        exact htext.percent_notMem hmem
      unfold isIPv6
      rw [List.dropWhile_eq_nil_iff.mpr hall, List.takeWhile_eq_self_iff.mpr hall]
      exact isIPv6Address_iff.mpr ⟨n, htext⟩
    · obtain ⟨htake, hdrop⟩ := takeWhile_separator htext.percent_notMem zone.units
      have hunits : (text ++ (("%" : JSString) ++ zone)).units
          = text.units ++ 0x25 :: zone.units := by
        rw [percent_eq]
        rfl
      unfold isIPv6
      rw [hunits, htake, hdrop]
      dsimp only
      rw [isIPv6Address_iff.mpr ⟨n, htext⟩, hzone]
      rw [isEmpty] at hne
      rw [hne]
      rfl

/-- **What `isIPv4` and `isIPv6` accept** denotes an address. -/
theorem exists_denotes_iff :
    (∃ address, Denotes s address) ↔ isIPv4 s = true ∨ isIPv6 s = true := by
  rw [isIPv4_iff, isIPv6_iff]
  constructor
  · rintro ⟨address, h⟩
    cases h with
    | ipv4 quad => exact .inl ⟨quad, rfl⟩
    | ipv6 h => exact .inr (.inl ⟨_, h⟩)
    | zoned h hzone hunits => exact .inr (.inr ⟨_, _, _, h, hzone, hunits, rfl⟩)
  · rintro (⟨quad, rfl⟩ | ⟨n, h⟩ | ⟨text, n, zone, h, hzone, hunits, rfl⟩)
    · exact ⟨_, .ipv4 quad⟩
    · exact ⟨_, .ipv6 h⟩
    · exact ⟨_, .zoned h hzone hunits⟩

end Ip
