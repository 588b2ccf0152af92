import MindooDB.Lib.JSStringParts
import MindooDB.Lib.Wildcard

/-!
# Server/Capabilities — who may call which administration route

`CapabilityMatcher` of `node/server/CapabilityMatcher.ts`: the rules `METHOD:PATHPATTERN` of the
configuration, each with its principals.

`pathMatches` looks at the ends of a path only.  It takes the first star for the wildcard, and both
ends may share letters of a short path; `isAuthorized` is what the rules say
(`isAuthorized_iff`) unless that decides (`grantsAsWritten_iff`).
-/

namespace MindooDB

open Bool List

structure SystemAdminPrincipal where
  username : JSString
  publicsignkey : JSString
  deriving DecidableEq

structure ServerConfig where
  capabilities : List (JSString × List SystemAdminPrincipal)

/-- A rule: whom, how and where. -/
structure ParsedRule where
  method : JSString
  pathPattern : JSString
  principals : List SystemAdminPrincipal

def isWildcardSystemAdminPrincipal (principal : SystemAdminPrincipal) : Bool :=
  principal.username = "*" && principal.publicsignkey = "*"

/-- The tenant id of `/^\/system\/tenants\/([^/]+)\/?$/`. -/
def parseSystemTenantItemPath (path : JSString) : Option JSString :=
  if path.startsWith "/system/tenants/" then
    let rest := path.units.drop ("/system/tenants/" : JSString).length
    let segment := rest.takeWhile (· ≠ 0x2F)
    let tail := rest.dropWhile (· ≠ 0x2F)
    if segment ≠ [] ∧ (tail = [] ∨ tail = [0x2F]) then
      some ⟨segment⟩
    else none
  else none

def isTenantCreationPath (path : JSString) : Bool := (parseSystemTenantItemPath path).isSome

def isTenantCreationRule (method pathPattern : JSString) : Bool :=
  method = "POST" && isTenantCreationPath pathPattern

def isTenantCreationRequest (method path : JSString) : Bool :=
  method = "POST" && isTenantCreationPath path

def methodMatches (ruleMethod requestMethod : JSString) : Bool :=
  ruleMethod = "ALL" || ruleMethod = requestMethod

/-- A path, against the pattern of a rule. -/
def pathMatches (pattern requestPath : JSString) : Bool :=
  match pattern.indexOf "*" with
  | none => pattern = requestPath
  | some starIdx =>
    if !requestPath.startsWith (pattern.take starIdx) then false
    else if (pattern.drop (starIdx + 1)).length = 0 then true
    else requestPath.endsWith (pattern.drop (starIdx + 1))

namespace CapabilityMatcher

variable (toUpperCase toLowerCase : JSString → JSString)

def parseRule (entry : JSString × List SystemAdminPrincipal) : ParsedRule :=
  match entry.1.indexOf ":" with
  | none => ⟨toUpperCase ⟨[]⟩, entry.1, entry.2⟩
  | some colonIdx =>
    ⟨toUpperCase (entry.1.take colonIdx), entry.1.drop (colonIdx + 1), entry.2⟩

def parseConfig (config : ServerConfig) : List ParsedRule :=
  config.capabilities.map (parseRule toUpperCase)

def principalMatches (rule : ParsedRule) (requestMethod requestPath : JSString)
    (principal : SystemAdminPrincipal) (normalizedUsername publicsignkey : JSString) : Bool :=
  (toLowerCase principal.username = normalizedUsername && principal.publicsignkey = publicsignkey)
    || (isWildcardSystemAdminPrincipal principal
      && isTenantCreationRule rule.method rule.pathPattern
      && isTenantCreationRequest requestMethod requestPath)

/-- **Some rule lets the request pass.** -/
def isAuthorized (config : ServerConfig) (httpMethod httpPath username publicsignkey : JSString) :
    Bool :=
  let method := toUpperCase httpMethod
  (parseConfig toUpperCase config).any fun rule =>
    methodMatches rule.method method && pathMatches rule.pathPattern httpPath
      && rule.principals.any fun principal =>
        principalMatches toLowerCase rule method httpPath principal (toLowerCase username)
          publicsignkey

def principalExists (config : ServerConfig) (username publicsignkey : JSString) : Bool :=
  (parseConfig toUpperCase config).any fun rule =>
    rule.principals.any fun principal =>
      principalMatches toLowerCase rule rule.method rule.pathPattern principal
        (toLowerCase username) publicsignkey

end CapabilityMatcher

/-! ## What the rules say -/

/-- One segment below `/system/tenants`. -/
def TenantPath (path : JSString) : Prop :=
  ∃ segment : List (Fin 65536), segment ≠ [] ∧ 0x2F ∉ segment
    ∧ (path.units = ("/system/tenants/" : JSString).units ++ segment
      ∨ path.units = ("/system/tenants/" : JSString).units ++ segment ++ [0x2F])

/-- **The paths of a pattern**: a star stands for any text. -/
def PathOf (pattern path : JSString) : Prop := Wildcard.Matches 0x2A pattern.units path.units

/-- The rule lists the principal, or lets everybody create tenants and this is such a request. -/
def Lists (toLowerCase : JSString → JSString) (rule : ParsedRule)
    (method path username publicsignkey : JSString) : Prop :=
  (∃ principal ∈ rule.principals, toLowerCase principal.username = toLowerCase username
      ∧ principal.publicsignkey = publicsignkey)
    ∨ (rule.method = "POST" ∧ TenantPath rule.pathPattern ∧ ⟨"*", "*"⟩ ∈ rule.principals
      ∧ method = "POST" ∧ TenantPath path)

/-- A rule for a request, its pattern apart. -/
def Grants (toLowerCase : JSString → JSString) (rule : ParsedRule)
    (method path username publicsignkey : JSString) : Prop :=
  (rule.method = "ALL" ∨ rule.method = method)
    ∧ Lists toLowerCase rule method path username publicsignkey

/-- **What the rules say.** -/
def Authorized (toUpperCase toLowerCase : JSString → JSString) (config : ServerConfig)
    (httpMethod httpPath username publicsignkey : JSString) : Prop :=
  ∃ rule ∈ CapabilityMatcher.parseConfig toUpperCase config,
    Grants toLowerCase rule (toUpperCase httpMethod) httpPath username publicsignkey
      ∧ PathOf rule.pathPattern httpPath

/-! ## Reading rules and paths -/

theorem isTenantCreationPath_iff (path : JSString) :
    isTenantCreationPath path = true ↔ TenantPath path := by
  obtain ⟨units⟩ := path
  unfold isTenantCreationPath parseSystemTenantItemPath JSString.startsWith JSString.length TenantPath
  generalize ("/system/tenants/" : JSString).units = front
  dsimp only
  constructor
  · intro h
    split_ifs at h with hfront hsegment
    · obtain ⟨rest, rfl⟩ := isPrefixOf_iff_prefix.mp hfront
      rw [drop_left] at hsegment
      have hrest := takeWhile_append_dropWhile (p := (· ≠ 0x2F)) (l := rest)
      refine ⟨_, hsegment.1, fun hmem => ?_, hsegment.2.imp (fun hnil => ?_) fun hslash => ?_⟩
      · have hslash := mem_takeWhile_imp hmem
        exact of_decide_eq_true hslash rfl
      · rw [hnil, append_nil] at hrest
        rw [hrest]
      · rw [hslash] at hrest
        rw [append_assoc, hrest]
    · exact nomatch h
    · exact nomatch h
  · rintro ⟨segment, hne, hslash, hunits⟩
    have hsegment : ∀ tail, (tail = [] ∨ tail = [0x2F]) →
        (segment ++ tail).takeWhile (· ≠ 0x2F) = segment
          ∧ (segment ++ tail).dropWhile (· ≠ 0x2F) = tail := by
      intro tail htail
      have hall : ∀ c ∈ segment, decide (c ≠ 0x2F) = true := fun c hc =>
        decide_eq_true fun heq => hslash (heq ▸ hc)
      rw [takeWhile_append_of_pos hall, dropWhile_append_of_pos hall]
      rcases htail with rfl | rfl <;> simp
    obtain ⟨tail, htail, rfl⟩ : ∃ tail, (tail = [] ∨ tail = [0x2F])
        ∧ units = front ++ (segment ++ tail) := by
      rcases hunits with rfl | rfl
      · exact ⟨[], .inl rfl, by rw [append_nil]⟩
      · exact ⟨[0x2F], .inr rfl, by rw [append_assoc]⟩
    rw [if_pos (List.isPrefixOf_iff_prefix.mpr (prefix_append _ _)), drop_left,
      (hsegment tail htail).1, (hsegment tail htail).2, if_pos ⟨hne, htail⟩]
    rfl

/-! ## Both ends of a path -/

/-- What stands before and behind the first star. -/
def starEnds (pattern : JSString) : Option (JSString × JSString) :=
  (pattern.indexOf "*").map fun starIdx => (pattern.take starIdx, pattern.drop (starIdx + 1))

/-- **Both ends fit, but share letters of the path.** -/
def Overlaps (pattern path : JSString) : Prop :=
  ∃ ends ∈ starEnds pattern, path.startsWith ends.1 = true ∧ path.endsWith ends.2 = true
    ∧ path.length < ends.1.length + ends.2.length

/-- **A path that needs a later star**: it does not end as the pattern is written. -/
def NeedsLaterStar (pattern path : JSString) : Prop :=
  ∃ ends ∈ starEnds pattern, 0x2A ∈ ends.2.units ∧ PathOf pattern path
    ∧ path.endsWith ends.2 = false

theorem starEnds_spec (pattern : JSString) :
    match starEnds pattern with
    | none => 0x2A ∉ pattern.units
    | some ends => pattern.units = ends.1.units ++ 0x2A :: ends.2.units
        ∧ 0x2A ∉ ends.1.units := by
  have hstar := JSString.indexOf_unit 0x2A pattern
  have hliteral : ("*" : JSString) = ⟨[0x2A]⟩ := by decide
  unfold starEnds
  rw [hliteral]
  cases hindex : pattern.indexOf ⟨[0x2A]⟩ with
  | none | some i =>
    rw [hindex] at hstar
    exact hstar

theorem pathMatches_eq (pattern path : JSString) :
    pathMatches pattern path = match starEnds pattern with
      | none => decide (pattern = path)
      | some ends => path.startsWith ends.1 && path.endsWith ends.2 := by
  unfold pathMatches starEnds
  cases pattern.indexOf "*" with
  | none => rfl
  | some i =>
    dsimp only [Option.map_some]
    cases path.startsWith (pattern.take i) with
    | false => rfl
    | true =>
      rw [Bool.true_and, Bool.not_true, if_neg Bool.false_ne_true]
      split_ifs with hnil
      · have hback : (pattern.drop (i + 1)).units = [] := length_eq_zero_iff.mp hnil
        rw [JSString.endsWith, hback]
        exact (isSuffixOf_iff_suffix.mpr (nil_suffix)).symm
      · rfl

/-- **What the path check accepts.** -/
theorem pathMatches_iff (pattern path : JSString) :
    pathMatches pattern path = true ↔
      (PathOf pattern path ∧ ¬ NeedsLaterStar pattern path) ∨ Overlaps pattern path := by
  have hspec := starEnds_spec pattern
  rw [pathMatches_eq]
  unfold NeedsLaterStar Overlaps PathOf
  cases hends : starEnds pattern with
  | none =>
    rw [hends] at hspec
    rw [Wildcard.matches_iff_eq hspec, decide_eq_true_eq]
    constructor
    · rintro rfl
      exact .inl ⟨rfl, fun ⟨_, hmem, _⟩ => nomatch hmem⟩
    · rintro (⟨heq, -⟩ | ⟨_, hmem, -⟩)
      · exact (JSString.units_injective heq).symm
      · exact nomatch hmem
  | some ends =>
    rw [hends] at hspec
    obtain ⟨hunits, hfront⟩ := hspec
    simp only [Option.mem_def, Option.some.injEq, exists_eq_left']
    rw [and_eq_true, hunits]
    constructor
    · rintro ⟨hstarts, hstops⟩
      have hmatches := Wildcard.matches_iff_length_le hfront
        (List.isPrefixOf_iff_prefix.mp hstarts) (isSuffixOf_iff_suffix.mp hstops)
      by_cases hlength : ends.1.length + ends.2.length ≤ path.length
      · exact .inl ⟨hmatches.mpr hlength, fun h => Bool.false_ne_true (h.2.2.symm.trans hstops)⟩
      · exact .inr ⟨hstarts, hstops, not_le.mp hlength⟩
    · rintro (⟨hmatches, hlater⟩ | ⟨hstarts, hstops, -⟩)
      · refine ⟨List.isPrefixOf_iff_prefix.mpr (Wildcard.begins_of_matches hfront hmatches), ?_⟩
        by_contra hstops
        rw [not_eq_true] at hstops
        by_cases hback : 0x2A ∈ ends.2.units
        · exact hlater ⟨hback, hmatches, hstops⟩
        · have hsuffix := Wildcard.ends_of_matches hfront hback hmatches
          exact Bool.false_ne_true
            (hstops.symm.trans (isSuffixOf_iff_suffix.mpr hsuffix))
      · exact ⟨hstarts, hstops⟩

theorem Overlaps.not_pathOf {pattern path : JSString} (h : Overlaps pattern path) :
    ¬ PathOf pattern path := by
  obtain ⟨ends, hends, hstarts, hstops, hlength⟩ := h
  have hspec := starEnds_spec pattern
  rw [hends] at hspec
  rw [PathOf, hspec.1, Wildcard.matches_iff_length_le hspec.2
    (List.isPrefixOf_iff_prefix.mp hstarts) (isSuffixOf_iff_suffix.mp hstops)]
  exact Nat.not_le.mpr hlength

/-- Some path is accepted by a pattern: the pattern. -/
theorem pathMatches_self (pattern : JSString) : pathMatches pattern pattern = true := by
  have hspec := starEnds_spec pattern
  rw [pathMatches_eq]
  cases hends : starEnds pattern with
  | none => exact decide_eq_true rfl
  | some ends =>
    rw [hends] at hspec
    dsimp only
    rw [and_eq_true]
    refine ⟨List.isPrefixOf_iff_prefix.mpr ⟨_, hspec.1.symm⟩,
      isSuffixOf_iff_suffix.mpr ⟨ends.1.units ++ [0x2A], ?_⟩⟩
    rw [hspec.1, append_assoc]
    rfl

/-! ## Requests -/

section

open CapabilityMatcher

variable {toUpperCase toLowerCase : JSString → JSString} {config : ServerConfig}
  {httpMethod httpPath username publicsignkey : JSString}

theorem methodMatches_iff (ruleMethod requestMethod : JSString) :
    methodMatches ruleMethod requestMethod = true ↔
      ruleMethod = "ALL" ∨ ruleMethod = requestMethod := by
  rw [methodMatches, or_eq_true, decide_eq_true_eq, decide_eq_true_eq]

theorem isWildcard_iff (principal : SystemAdminPrincipal) :
    isWildcardSystemAdminPrincipal principal = true ↔ principal = ⟨"*", "*"⟩ := by
  obtain ⟨username, publicsignkey⟩ := principal
  rw [isWildcardSystemAdminPrincipal, and_eq_true, decide_eq_true_eq, decide_eq_true_eq,
    SystemAdminPrincipal.mk.injEq]

/-- **What a principal of a rule is let do.** -/
theorem any_principalMatches_iff (rule : ParsedRule) (method path : JSString) :
    (rule.principals.any fun principal => principalMatches toLowerCase rule method path principal
      (toLowerCase username) publicsignkey) = true ↔
      Lists toLowerCase rule method path username publicsignkey := by
  rw [any_eq_true]
  unfold principalMatches isTenantCreationRule isTenantCreationRequest Lists
  simp only [or_eq_true, and_eq_true, decide_eq_true_eq, isWildcard_iff,
    isTenantCreationPath_iff]
  constructor
  · rintro ⟨principal, hmem, hlisted | ⟨⟨rfl, hrule, hpattern⟩, hmethod, hpath⟩⟩
    · exact .inl ⟨principal, hmem, hlisted⟩
    · exact .inr ⟨hrule, hpattern, hmem, hmethod, hpath⟩
  · rintro (⟨principal, hmem, hlisted⟩ | ⟨hrule, hpattern, hmem, hmethod, hpath⟩)
    · exact ⟨principal, hmem, .inl hlisted⟩
    · exact ⟨_, hmem, .inr ⟨⟨rfl, hrule, hpattern⟩, hmethod, hpath⟩⟩

/-- **What `isAuthorized` decides.** -/
theorem isAuthorized_iff :
    isAuthorized toUpperCase toLowerCase config httpMethod httpPath username publicsignkey = true ↔
      ∃ rule ∈ parseConfig toUpperCase config,
        Grants toLowerCase rule (toUpperCase httpMethod) httpPath username publicsignkey
          ∧ pathMatches rule.pathPattern httpPath = true := by
  unfold isAuthorized Grants
  rw [any_eq_true]
  simp only [and_eq_true, methodMatches_iff, any_principalMatches_iff]
  exact exists_congr fun rule => and_congr_right fun _ => and_right_comm

/-- A rule is one for its own method. -/
theorem exists_method {rule : ParsedRule} (h : rule ∈ parseConfig toUpperCase config) :
    ∃ httpMethod, toUpperCase httpMethod = rule.method := by
  obtain ⟨entry, -, rfl⟩ := mem_map.mp h
  rw [parseRule]
  split
  · exact ⟨_, rfl⟩
  · exact ⟨_, rfl⟩

/-- **A principal exists** if it may do something. -/
theorem principalExists_iff_isAuthorized :
    principalExists toUpperCase toLowerCase config username publicsignkey = true ↔
      ∃ httpMethod httpPath, isAuthorized toUpperCase toLowerCase config httpMethod httpPath
        username publicsignkey = true := by
  unfold principalExists
  rw [any_eq_true]
  simp only [any_principalMatches_iff]
  constructor
  · rintro ⟨rule, hmem, hlists⟩
    obtain ⟨httpMethod, hmethod⟩ := exists_method hmem
    refine ⟨httpMethod, rule.pathPattern, isAuthorized_iff.mpr ⟨rule, hmem, ?_, ?_⟩⟩
    · rw [hmethod]
      exact ⟨.inr rfl, hlists⟩
    · exact pathMatches_self rule.pathPattern
  · rintro ⟨httpMethod, httpPath, hauthorized⟩
    obtain ⟨rule, hmem, ⟨-, hlists⟩, -⟩ := isAuthorized_iff.mp hauthorized
    refine ⟨rule, hmem, hlists.imp_right ?_⟩
    rintro ⟨hrule, hpattern, hprincipal, -⟩
    exact ⟨hrule, hpattern, hprincipal, hrule, hpattern⟩

end

/-! ## The rules as written -/

/-- **The path decides as the rules say**: some rule for the request has the path in its pattern and
takes it, or those that take too much and those that take too little leave it as it is. -/
def PathsAsWritten (toUpperCase toLowerCase : JSString → JSString) (config : ServerConfig)
    (httpMethod httpPath username publicsignkey : JSString) : Prop :=
  let granting := fun rule => rule ∈ CapabilityMatcher.parseConfig toUpperCase config
    ∧ Grants toLowerCase rule (toUpperCase httpMethod) httpPath username publicsignkey
  (∃ rule, granting rule ∧ PathOf rule.pathPattern httpPath
      ∧ ¬ NeedsLaterStar rule.pathPattern httpPath)
    ∨ ((∃ rule, granting rule ∧ Overlaps rule.pathPattern httpPath) ↔
      ∃ rule, granting rule ∧ NeedsLaterStar rule.pathPattern httpPath)

/-- **Capabilities grant what the rules say.** -/
def GrantsAsWritten (toUpperCase toLowerCase : JSString → JSString) (config : ServerConfig)
    (httpMethod httpPath username publicsignkey : JSString) : Prop :=
  (CapabilityMatcher.isAuthorized toUpperCase toLowerCase config httpMethod httpPath username
      publicsignkey = true ↔
    Authorized toUpperCase toLowerCase config httpMethod httpPath username publicsignkey)
  ∧ (CapabilityMatcher.principalExists toUpperCase toLowerCase config username publicsignkey
      = true ↔
    ∃ httpMethod httpPath, CapabilityMatcher.isAuthorized toUpperCase toLowerCase config httpMethod
      httpPath username publicsignkey = true)

theorem grantsAsWritten_iff (toUpperCase toLowerCase : JSString → JSString) (config : ServerConfig)
    (httpMethod httpPath username publicsignkey : JSString) :
    GrantsAsWritten toUpperCase toLowerCase config httpMethod httpPath username publicsignkey ↔
      PathsAsWritten toUpperCase toLowerCase config httpMethod httpPath username
        publicsignkey := by
  rw [GrantsAsWritten, and_iff_left principalExists_iff_isAuthorized, isAuthorized_iff]
  unfold Authorized PathsAsWritten
  simp only [pathMatches_iff]
  constructor
  · intro h
    by_cases hplain : ∃ rule, (rule ∈ CapabilityMatcher.parseConfig toUpperCase config
        ∧ Grants toLowerCase rule (toUpperCase httpMethod) httpPath username publicsignkey)
        ∧ PathOf rule.pathPattern httpPath ∧ ¬ NeedsLaterStar rule.pathPattern httpPath
    · exact .inl hplain
    · refine .inr ⟨?_, ?_⟩
      · rintro ⟨rule, ⟨hmem, hgrants⟩, hoverlaps⟩
        obtain ⟨rule', hmem', hgrants', hpath⟩ := h.mp ⟨rule, hmem, hgrants, .inr hoverlaps⟩
        by_contra hnone
        exact hplain ⟨rule', ⟨hmem', hgrants'⟩, hpath, fun hlater =>
          hnone ⟨rule', ⟨hmem', hgrants'⟩, hlater⟩⟩
      · rintro ⟨rule, ⟨hmem, hgrants⟩, hlater⟩
        obtain ⟨ends, -, -, hpath, -⟩ := hlater
        obtain ⟨rule', hmem', hgrants', hplain' | hoverlaps⟩ := h.mpr ⟨rule, hmem, hgrants, hpath⟩
        · exact absurd ⟨rule', ⟨hmem', hgrants'⟩, hplain'⟩ hplain
        · exact ⟨rule', ⟨hmem', hgrants'⟩, hoverlaps⟩
  · rintro (⟨rule, ⟨hmem, hgrants⟩, hpath, hlater⟩ | hboth)
    · exact ⟨fun _ => ⟨rule, hmem, hgrants, hpath⟩,
        fun _ => ⟨rule, hmem, hgrants, .inl ⟨hpath, hlater⟩⟩⟩
    · constructor
      · rintro ⟨rule, hmem, hgrants, ⟨hpath, -⟩ | hoverlaps⟩
        · exact ⟨rule, hmem, hgrants, hpath⟩
        · obtain ⟨rule', ⟨hmem', hgrants'⟩, ends, -, -, hpath, -⟩ :=
            hboth.mp ⟨rule, ⟨hmem, hgrants⟩, hoverlaps⟩
          exact ⟨rule', hmem', hgrants', hpath⟩
      · rintro ⟨rule, hmem, hgrants, hpath⟩
        by_cases hlater : NeedsLaterStar rule.pathPattern httpPath
        · obtain ⟨rule', ⟨hmem', hgrants'⟩, hoverlaps⟩ :=
            hboth.mpr ⟨rule, ⟨hmem, hgrants⟩, hlater⟩
          exact ⟨rule', hmem', hgrants', .inr hoverlaps⟩
        · exact ⟨rule, hmem, hgrants, .inl ⟨hpath, hlater⟩⟩

/-- An administrator of the servers every tenant syncs with. -/
def syncServersConfig : ServerConfig :=
  ⟨[("GET:/system/tenants/*/sync-servers", [⟨"cn=ops/o=acme", "ops-key"⟩])]⟩

/-- The slash in front of `sync-servers` is taken twice, and the tenant of this name is read. -/
theorem not_grantsAsWritten_syncServers :
    ¬ GrantsAsWritten id id syncServersConfig "GET" "/system/tenants/sync-servers"
      "cn=ops/o=acme" "ops-key" := by
  intro h
  have hauthorized : CapabilityMatcher.isAuthorized id id syncServersConfig "GET"
      "/system/tenants/sync-servers" "cn=ops/o=acme" "ops-key" = true := by decide +kernel
  obtain ⟨rule, hmem, -, hpath⟩ := h.1.mp hauthorized
  have hrule : rule.pathPattern = "/system/tenants/*/sync-servers" := by
    obtain ⟨entry, hentry, rfl⟩ := mem_map.mp hmem
    obtain rfl := mem_singleton.mp hentry
    decide +kernel
  rw [hrule] at hpath
  have hoverlaps : Overlaps "/system/tenants/*/sync-servers" "/system/tenants/sync-servers" :=
    ⟨("/system/tenants/", "/sync-servers"), by decide +kernel, by decide +kernel,
      by decide +kernel, by decide +kernel⟩
  exact hoverlaps.not_pathOf hpath

end MindooDB
