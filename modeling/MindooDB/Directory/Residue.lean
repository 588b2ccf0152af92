import MindooDB.Directory.Unions

/-!
# Directory/Residue — no residue of superseded revisions

Rules and witnesses are written to slots, whichever document asks for it; a step in place keeps them
right as well.  `reflects_of_allInPlace` puts the families together for a whole run.
-/

namespace MindooDB

open DirectoryChange DirectoryStateChainBuilder DirectoryTables List

variable {τ : Type*} {l : LatestChanges}

/-! ## Rules and witnesses -/

section Slots

variable {docId : JSString} {change : DirectoryChange}

theorem ruleWrite_eq_some {e : JSString × DirectoryChange} {slot : RuleType × JSString}
    {rule : AclRuleDoc} :
    ruleWrite e = some (slot, some rule) ↔ e.2 = .setRule rule ∧ slot = (rule.type, rule.ruleId) := by
  obtain ⟨docId, change⟩ := e
  cases change <;> simp [ruleWrite]
  constructor
  · rintro ⟨rfl, rfl⟩
    exact ⟨rfl, rfl⟩
  · rintro ⟨rfl, rfl⟩
    exact ⟨rfl, rfl⟩

theorem witnessWrite_eq_some {e : JSString × DirectoryChange} {key : JSString}
    {witness : TrustedWitnessDoc} :
    witnessWrite e = some (key, some witness)
      ↔ e.2 = .setWitness witness ∧ key = witness.witnessPublicKey := by
  obtain ⟨docId, change⟩ := e
  cases change <;> simp [witnessWrite]
  constructor
  · rintro ⟨rfl, rfl⟩
    exact ⟨rfl, rfl⟩
  · rintro ⟨rfl, rfl⟩
    exact ⟨rfl, rfl⟩

/-- The rule that stands in a slot is that of a current document. -/
theorem document_of_ruleAt {type : RuleType} {ruleId : JSString} {rule : AclRuleDoc}
    (h : lastWrite ruleWrite l (type, ruleId) = some rule) :
    rule.type = type ∧ rule.ruleId = ruleId ∧ ∃ docId, (docId, .setRule rule) ∈ l := by
  obtain ⟨⟨docId, change⟩, hmem, hwrite⟩ := exists_write_of_lastWrite ruleWrite h
  obtain ⟨rfl, hslot⟩ := ruleWrite_eq_some.mp hwrite
  obtain ⟨rfl, rfl⟩ := Prod.mk.inj hslot
  exact ⟨rfl, rfl, docId, hmem⟩

/-- The rules listed under a type. -/
def DirectoryTables.rules (x : DirectoryTables) (type : RuleType) : List AclRuleDoc :=
  (x.rulesByType.get? type).getD []

/-- The rule tables say what the latest revisions say. -/
structure RulesReflect (l : LatestChanges) (x : DirectoryTables) : Prop where
  listed : ∀ type rule, rule ∈ x.rules type ↔ lastWrite ruleWrite l (type, rule.ruleId) = some rule
  once : ∀ type, ((x.rules type).map fun r => r.ruleId).Nodup
  oneType : ∀ type type' ruleId, (lastWrite ruleWrite l (type, ruleId)).isSome →
    (lastWrite ruleWrite l (type', ruleId)).isSome → type = type'

variable [LinearOrder τ] {b : DirectoryStateChainBuilder τ} (t : τ)

theorem RulesReflect.other {x x' : DirectoryTables} (h : RulesReflect l x)
    (hin : InPlace l docId change) (hrules : x'.rulesByType = x.rulesByType)
    (hwrite : ruleWrite (docId, change) = none) : RulesReflect (supersede l docId change) x' := by
  have hlast : ∀ slot, lastWrite ruleWrite (supersede l docId change) slot
      = lastWrite ruleWrite l slot := fun slot => by
    rw [lastWrite_supersede hin.rule, lastWrite_append_of_none ruleWrite hwrite]
  have hsame : x'.rules = x.rules := funext fun type => by
    rw [rules, hrules, rules]
  refine ⟨fun type rule => ?_, hsame ▸ h.once, fun type type' ruleId => ?_⟩
  · rw [hsame, hlast, h.listed]
  · rw [hlast, hlast]
    exact h.oneType type type' ruleId

theorem rules_applyRule (rule : AclRuleDoc) (type : RuleType) : (b.applyRule rule t).tables.rules type
    = if type = rule.type then
        (b.tables.rules rule.type).filter (fun r => r.ruleId ≠ rule.ruleId) ++ [rule]
      else b.tables.rules type := by
  rw [rules, show (b.applyRule rule t).tables.rulesByType
    = b.tables.rulesByType.set rule.type ((b.tables.rules rule.type).filter
      (fun r => r.ruleId ≠ rule.ruleId) ++ [rule]) from rfl, LinkedMap.get?_set]
  split <;> rfl

theorem rules_removeRule (ruleId : JSString) (ruleType type : RuleType) :
    (b.removeRule ruleId ruleType t).tables.rules type
      = if type = ruleType then (b.tables.rules ruleType).filter fun r => r.ruleId ≠ ruleId
        else b.tables.rules type := by
  rw [rules, show (b.removeRule ruleId ruleType t).tables.rulesByType
    = b.tables.rulesByType.set ruleType ((b.tables.rules ruleType).filter
      fun r => r.ruleId ≠ ruleId) from rfl, LinkedMap.get?_set]
  split <;> rfl

/-- What writes no slot leaves its table. -/
theorem slots_applyTo : (ruleWrite (docId, change) = none →
      (change.applyTo b docId t).tables.rulesByType = b.tables.rulesByType)
    ∧ (witnessWrite (docId, change) = none →
      (change.applyTo b docId t).tables.trustedWitnessKeys = b.tables.trustedWitnessKeys) := by
  cases change with
  | setRule | removeRule => exact ⟨nofun, fun _ => rfl⟩
  | setWitness | removeWitness => exact ⟨fun _ => rfl, nofun⟩
  | setGroup | other => exact ⟨fun _ => rfl, fun _ => rfl⟩
  | setGrant g =>
    obtain ⟨_, _, _, hx⟩ := exists_tables_applyGrantDoc b t docId g
    rw [applyTo, hx]
    exact ⟨fun _ => rfl, fun _ => rfl⟩
  | removeGrant =>
    obtain ⟨_, _, _, hx⟩ := exists_tables_removeGrantDoc b t docId
    rw [applyTo, hx]
    exact ⟨fun _ => rfl, fun _ => rfl⟩
  | removeGroup =>
    obtain ⟨_, _, hx⟩ := exists_tables_removeGroupDoc b t docId
    rw [applyTo, hx]
    exact ⟨fun _ => rfl, fun _ => rfl⟩

/-- **A change in place keeps the rules right.** -/
theorem RulesReflect.step (h : RulesReflect l b.tables) (hin : InPlace l docId change) :
    RulesReflect (supersede l docId change) (change.applyTo b docId t).tables := by
  cases change with
  | setRule rule =>
    have hlast : ∀ slot, lastWrite ruleWrite (supersede l docId (.setRule rule)) slot
        = if (rule.type, rule.ruleId) = slot then some rule else lastWrite ruleWrite l slot :=
      fun slot => by
        rw [lastWrite_supersede hin.rule]
        exact lastWrite_append_of_write ruleWrite rfl l slot
    have hruleType : ∀ type, (lastWrite ruleWrite l (type, rule.ruleId)).isSome →
        type = rule.type := fun type hsome => by
      by_contra hne
      simp [hin.ruleType rule rfl type hne] at hsome
    rw [applyTo]
    refine ⟨fun type r => ?_, fun type => ?_, fun type type' ruleId => ?_⟩
    · rw [rules_applyRule, hlast]
      by_cases htype : type = rule.type
      · subst htype
        rw [if_pos rfl, mem_append, mem_filter, h.listed, mem_singleton]
        by_cases hid : r.ruleId = rule.ruleId
        · simp [hid, eq_comm]
        · have hne : r ≠ rule := fun heq => hid (heq ▸ rfl)
          simp [hid, hne, Ne.symm hid]
      · rw [if_neg htype, h.listed, if_neg fun heq => htype (congrArg Prod.fst heq).symm]
    · rw [rules_applyRule]
      split
      · rw [map_append, map_singleton, ← concat_eq_append]
        refine List.Nodup.concat ?_ ((h.once rule.type).sublist (filter_sublist.map _))
        simp
      · exact h.once type
    · rw [hlast, hlast]
      by_cases hid : ruleId = rule.ruleId
      · subst hid
        intro hsome hsome'
        have hof : ∀ type, (if (rule.type, rule.ruleId) = (type, rule.ruleId) then some rule
            else lastWrite ruleWrite l (type, rule.ruleId)).isSome → type = rule.type := by
          intro type hsome
          split at hsome
          · exact (congrArg Prod.fst ‹_›).symm
          · exact hruleType type hsome
        rw [hof type hsome, hof type' hsome']
      · have hne : ∀ type, (rule.type, rule.ruleId) ≠ (type, ruleId) := fun type heq =>
          hid (congrArg Prod.snd heq).symm
        rw [if_neg (hne type), if_neg (hne type')]
        exact h.oneType type type' ruleId
  | removeRule ruleId ruleType =>
    have hlast : ∀ slot, lastWrite ruleWrite (supersede l docId (.removeRule ruleId ruleType)) slot
        = if (ruleType, ruleId) = slot then none else lastWrite ruleWrite l slot :=
      fun slot => by
        rw [lastWrite_supersede hin.rule]
        exact lastWrite_append_of_write ruleWrite rfl l slot
    rw [applyTo]
    refine ⟨fun type r => ?_, fun type => ?_, fun type type' id hsome hsome' => ?_⟩
    · rw [rules_removeRule, hlast]
      by_cases htype : type = ruleType
      · subst htype
        rw [if_pos rfl, mem_filter, h.listed]
        by_cases hid : r.ruleId = ruleId
        · simp [hid]
        · simp [hid, Ne.symm hid]
      · rw [if_neg htype, h.listed, if_neg fun heq => htype (congrArg Prod.fst heq).symm]
    · rw [rules_removeRule]
      split
      · exact (h.once ruleType).sublist (filter_sublist.map _)
      · exact h.once type
    · rw [hlast] at hsome hsome'
      split at hsome
      · simp at hsome
      · split at hsome'
        · simp at hsome'
        · exact h.oneType type type' id hsome hsome'
  | _ => exact h.other hin ((slots_applyTo t).1 rfl) rfl

/-- The trusted witnesses are what the latest revisions say. -/
def WitnessesReflect (l : LatestChanges) (x : DirectoryTables) : Prop :=
  ∀ key, x.trustedWitnessKeys.get? key = lastWrite witnessWrite l key

theorem document_of_witnessAt {key : JSString} {witness : TrustedWitnessDoc}
    (h : lastWrite witnessWrite l key = some witness) :
    witness.witnessPublicKey = key ∧ ∃ docId, (docId, .setWitness witness) ∈ l := by
  obtain ⟨⟨docId, change⟩, hmem, hwrite⟩ := exists_write_of_lastWrite witnessWrite h
  obtain ⟨rfl, rfl⟩ := witnessWrite_eq_some.mp hwrite
  exact ⟨rfl, docId, hmem⟩

theorem WitnessesReflect.other {x x' : DirectoryTables} (h : WitnessesReflect l x)
    (hin : InPlace l docId change) (hkeys : x'.trustedWitnessKeys = x.trustedWitnessKeys)
    (hwrite : witnessWrite (docId, change) = none) :
    WitnessesReflect (supersede l docId change) x' := by
  intro key
  rw [lastWrite_supersede hin.witness, lastWrite_append_of_none witnessWrite hwrite, hkeys, h]

/-- **A change in place keeps the witnesses right.** -/
theorem WitnessesReflect.step (h : WitnessesReflect l b.tables) (hin : InPlace l docId change) :
    WitnessesReflect (supersede l docId change) (change.applyTo b docId t).tables := by
  cases change with
  | setWitness witness =>
    intro key
    have hwrite : witnessWrite (docId, .setWitness witness)
        = some (witness.witnessPublicKey, some witness) := rfl
    rw [lastWrite_supersede hin.witness, lastWrite_append_of_write witnessWrite hwrite, ← h]
    refine (LinkedMap.get?_set _ _ _ _).trans ?_
    simp only [eq_comm]
    rfl
  | removeWitness witnessPublicKey =>
    intro key
    have hwrite : witnessWrite (docId, .removeWitness witnessPublicKey)
        = some (witnessPublicKey, none) := rfl
    rw [lastWrite_supersede hin.witness, lastWrite_append_of_write witnessWrite hwrite, ← h]
    refine (LinkedMap.get?_delete _ _ _).trans ?_
    simp only [eq_comm]
    rfl
  | _ => exact h.other hin ((slots_applyTo t).2 rfl) rfl

end Slots

/-! ## A run -/

/-- All tables say what the latest revisions say. -/
structure TablesReflect (l : LatestChanges) (x : DirectoryTables) : Prop where
  groups : GroupsReflect l x
  grants : GrantsReflect l x
  rules : RulesReflect l x
  witnesses : WitnessesReflect l x

section Run

variable [LinearOrder τ] {b : DirectoryStateChainBuilder τ}

omit [LinearOrder τ] in
theorem TablesReflect.reflects (h : TablesReflect l b.tables) : Reflects l b.head.state where
  group := h.groups.union
  user := h.grants.user
  signingKey := h.grants.signingKey
  rule := h.rules.listed
  ruleOfDocument type rule hrule := by
    obtain ⟨htype, -, hdoc⟩ := document_of_ruleAt ((h.rules.listed type rule).mp hrule)
    exact ⟨htype, hdoc⟩
  ruleOnce := h.rules.once
  ruleOneType type type' rule hrule rule' hrule' hid := by
    have hlast := (h.rules.listed type rule).mp hrule
    have hlast' := (h.rules.listed type' rule').mp hrule'
    rw [hid] at hlast
    exact h.rules.oneType type type' rule'.ruleId (by simp [hlast]) (by simp [hlast'])
  witness := h.witnesses
  witnessOfDocument key witness hkey := document_of_witnessAt ((h.witnesses key).symm.trans hkey)

theorem tablesReflect_fresh [OrderBot τ] :
    TablesReflect [] (fresh : DirectoryStateChainBuilder τ).tables := by
  rw [tables_fresh]
  exact
    { groups := ⟨tabulates_nil, fun name => by simp [IsGroup, GroupNamed]⟩
      grants := ⟨tabulates_nil, fun hash => rfl, rfl, by simp [GrantsAgree]⟩
      rules := ⟨fun type rule => by simp [rules],
        fun type => by simp [rules], by simp⟩
      witnesses := fun key => rfl }

/-- **A step in place keeps all tables right.** -/
theorem TablesReflect.step (h : TablesReflect l b.tables) {docId : JSString}
    {change : DirectoryChange} (hin : InPlace l docId change) (t : τ) :
    TablesReflect (supersede l docId change) (change.applyTo b docId t).tables :=
  ⟨h.groups.step hin t, h.grants.step hin t, h.rules.step t hin, h.witnesses.step t hin⟩

end Run

section

variable [LinearOrder τ] (normalizeGroupName : JSString → JSString)

/-- The latest revision of each document. -/
def latestRevisions (revs : List (DirectoryRevision τ)) : List (DirectoryRevision τ) :=
  latestBy (fun r => r.docId) revs

/-- What the latest revisions ask for. -/
def latestChanges (revs : List (DirectoryRevision τ)) : LatestChanges :=
  (latestRevisions revs).map fun r => (r.docId, r.change normalizeGroupName)

/-- The builder after projecting revisions onto a fresh chain. -/
def projectAll [OrderBot τ] (revs : List (DirectoryRevision τ)) : DirectoryStateChainBuilder τ :=
  revs.foldl (projectDirectoryRevision normalizeGroupName) .fresh

/-- Every revision supersedes that of its document in place. -/
def AllInPlace (revs : List (DirectoryRevision τ)) : Prop :=
  ∀ before r, before ++ [r] <+: revs →
    InPlace (latestChanges normalizeGroupName before) r.docId (r.change normalizeGroupName)

variable {normalizeGroupName}

omit [LinearOrder τ] in
theorem latestChanges_append (revs : List (DirectoryRevision τ)) (r : DirectoryRevision τ) :
    latestChanges normalizeGroupName (revs ++ [r])
      = supersede (latestChanges normalizeGroupName revs) r.docId (r.change normalizeGroupName) := by
  rw [latestChanges, latestRevisions, latestBy_append_singleton, map_append, supersede, others,
    latestChanges, filter_map]
  rfl

variable {revs : List (DirectoryRevision τ)}

omit [LinearOrder τ] in
theorem allInPlace_before {reached : List (DirectoryRevision τ)}
    (h : AllInPlace normalizeGroupName revs) (hreached : reached <+: revs) :
    AllInPlace normalizeGroupName reached := fun before r hpre =>
  h before r (hpre.trans hreached)

omit [LinearOrder τ] in
theorem allInPlace_append {r : DirectoryRevision τ} (h : AllInPlace normalizeGroupName revs)
    (hin : InPlace (latestChanges normalizeGroupName revs) r.docId (r.change normalizeGroupName)) :
    AllInPlace normalizeGroupName (revs ++ [r]) := by
  intro before r' hpre
  rcases prefix_concat_iff.mp hpre with heq | hpre
  · obtain ⟨rfl, hlast⟩ := append_inj' heq rfl
    obtain rfl := singleton_inj.mp hlast
    exact hin
  · exact h before r' hpre

theorem tablesReflect_projectAll [OrderBot τ] {revs : List (DirectoryRevision τ)}
    (h : AllInPlace normalizeGroupName revs) :
    TablesReflect (latestChanges normalizeGroupName revs)
      (projectAll normalizeGroupName revs).tables := by
  induction revs using List.reverseRecOn with
  | nil => exact tablesReflect_fresh
  | append_singleton revs r ih =>
    rw [projectAll, foldl_append, foldl_cons, foldl_nil, ← projectAll,
      tables_projectDirectoryRevision, latestChanges_append]
    exact (ih (allInPlace_before h (prefix_append _ _))).step
      (h revs r (prefix_refl _)) r.trustedTime

/-- **No residue, as long as every revision supersedes in place.**  In every state reached the head
says what the latest revision of each document says, and two runs with the same latest revisions end
in the same tables. -/
theorem reflects_of_allInPlace [OrderBot τ] (normalizeGroupName : JSString → JSString)
    (revs : List (DirectoryRevision τ)) (h : AllInPlace normalizeGroupName revs) :
    (∀ reached, reached <+: revs → Reflects (latestChanges normalizeGroupName reached)
      (projectAll normalizeGroupName reached).head.state) ∧
    ∀ revs', AllInPlace normalizeGroupName revs' → latestRevisions revs' = latestRevisions revs →
      SameTables (projectAll normalizeGroupName revs').head.state
        (projectAll normalizeGroupName revs).head.state := by
  refine ⟨fun reached hreached =>
    (tablesReflect_projectAll (allInPlace_before h hreached)).reflects, fun revs' h' hlatest => ?_⟩
  have hsame : latestChanges normalizeGroupName revs' = latestChanges normalizeGroupName revs :=
    congrArg (List.map _) hlatest
  exact Reflects.sameTables (hsame ▸ (tablesReflect_projectAll h').reflects)
    (tablesReflect_projectAll h).reflects

end

/-- A revision of the group document `g1`. -/
def groupRevision (name member : String) (deleted : Bool) (t : ℕ) : DirectoryRevision ℕ where
  docId := "g1"
  data := [("form", .string "group"), ("type", .string "group"), ("groupName", .string name),
    ("members_hashes", .array [.string member])]
  deleted := deleted
  trustedTime := t

/-- A group deleted and created again under another name. -/
def recreatedGroup : List (DirectoryRevision ℕ) :=
  [groupRevision "staff" "alice" false 1, groupRevision "staff" "alice" true 2,
    groupRevision "crew" "bob" false 3]

theorem reflects_of_allInPlace_recreatedGroup :
    Reflects (latestChanges id recreatedGroup) (projectAll id recreatedGroup).head.state := by
  have hnil : AllInPlace id ([] : List (DirectoryRevision ℕ)) := fun before r hpre => by
    simp at hpre
  have hcreated : AllInPlace id [groupRevision "staff" "alice" false 1] :=
    allInPlace_append hnil
      { grant := fun g h => by cases h
        group := fun g h => by cases h
        groupName := fun g g' h => by cases h
        rule := fun slot _ => rfl
        ruleType := fun rule h => by cases h
        witness := fun key _ => rfl
        agree := fun g h => by cases h }
  have hdeleted : AllInPlace id (recreatedGroup.take 2) :=
    allInPlace_append hcreated
      { grant := fun g h => by rcases h with _ | ⟨_, ⟨⟩⟩
        group := fun g h => Or.inr rfl
        groupName := fun g g' h h' => by cases h'
        rule := fun slot _ => rfl
        ruleType := fun rule h => by cases h
        witness := fun key _ => rfl
        agree := fun g h => by cases h }
  have hlatest : latestChanges id (recreatedGroup.take 2) = [(("g1" : JSString), removeGroup)] := rfl
  have hrecreated : AllInPlace id recreatedGroup := by
    refine allInPlace_append hdeleted ?_
    rw [hlatest]
    exact
      { grant := by simp
        group := by simp
        groupName := by simp
        rule := fun slot _ => rfl
        ruleType := fun rule h => by cases h
        witness := fun key _ => rfl
        agree := fun g h => by cases h }
  exact (reflects_of_allInPlace id recreatedGroup hrecreated).1 _ (prefix_refl _)

/-- **A renamed group stays behind under its old name.** -/
theorem not_reflects_renamedGroup :
    ¬ ∀ (normalizeGroupName : JSString → JSString) (revs : List (DirectoryRevision ℕ)),
      revs.Pairwise (fun a b => a.trustedTime ≤ b.trustedTime) →
        Reflects (latestChanges normalizeGroupName revs)
          (projectAll normalizeGroupName revs).head.state := by
  intro h
  have hstaff := (h id [groupRevision "staff" "alice" false 1, groupRevision "crew" "alice" false 2]
    (by decide)).group "staff"
  have hlatest : latestChanges id
      [groupRevision "staff" "alice" false 1, groupRevision "crew" "alice" false 2]
      = [(("g1" : JSString), setGroup ⟨"crew", ["alice"]⟩)] := rfl
  have hhead : (projectAll id [groupRevision "staff" "alice" false 1,
      groupRevision "crew" "alice" false 2]).head.state.groupsByName.get? "staff"
      = some ⟨"staff", ["alice"]⟩ := rfl
  rw [hlatest, hhead] at hstaff
  obtain ⟨⟨docId, g, hmem, hname⟩, -⟩ := hstaff
  obtain ⟨-, rfl⟩ : docId = "g1" ∧ g = ⟨"crew", ["alice"]⟩ := by simpa using hmem
  exact absurd hname (by decide)

end MindooDB
