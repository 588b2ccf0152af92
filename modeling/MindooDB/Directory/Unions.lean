import MindooDB.Directory.Latest

/-!
# Directory/Unions — groups and grants, the tables with contributions

The builder keeps what each group and grant document contributes, and recomputes the union a change
touches.  A step in place keeps both families of tables right.
-/

namespace MindooDB

open DirectoryChange DirectoryStateChainBuilder LinkedMap LinkedSet List

variable {τ : Type*} {l : LatestChanges}

theorem exists_contribution_iff {α : Type*} {P : JSString → α → Prop} {Q R : α → Prop} :
    (∃ g, (∃ docId, P docId g ∧ Q g) ∧ R g) ↔ ∃ docId g, P docId g ∧ Q g ∧ R g := by
  simp only [exists_and_right.symm, and_assoc]
  exact exists_comm

/-! ## Groups -/

section Groups

variable {docId : JSString} {change : DirectoryChange} {m : LinkedMap JSString GroupSnapshot}

/-- A row of the group contributions is a current group document. -/
theorem group_mem_iff (h : Tabulates group? l m) {g : GroupSnapshot} :
    m.get? docId = some g ↔ (docId, .setGroup g) ∈ l := by
  rw [h docId g]
  simp

theorem isGroup_groupUnion (h : Tabulates group? l m) (name : JSString) :
    IsGroup l name (groupUnion m name) := by
  have hown : ∀ g, g ∈ m.values.filter (fun g => g.name = name)
      ↔ ∃ docId, (docId, .setGroup g) ∈ l ∧ g.name = name := by
    intro g
    simp only [mem_filter, mem_values_iff, decide_eq_true_eq, group_mem_iff h, exists_and_right]
  unfold groupUnion
  simp only
  split
  · rename_i hempty
    rintro ⟨docId, g, hmem, hname⟩
    have hg := (hown g).mpr ⟨docId, hmem, hname⟩
    rw [List.isEmpty_iff.mp hempty] at hg
    simp at hg
  · rename_i hne
    refine ⟨?_, rfl, fun member => ?_⟩
    · obtain ⟨g, hg⟩ := exists_mem_of_ne_nil _ fun hnil => hne (List.isEmpty_iff.mpr hnil)
      obtain ⟨docId, hmem, hname⟩ := (hown g).mp hg
      exact ⟨docId, g, hmem, hname⟩
    · rw [← mem_def, mem_foldl_addAll, GroupMember]
      simp only [notMem_empty, false_or, hown]
      exact exists_contribution_iff

/-- What another document says too, or neither the new revision nor the one it supersedes, stays. -/
theorem exists_group_supersede_iff {P : GroupSnapshot → Prop} (hnew : ∀ g, change = .setGroup g → ¬ P g)
    (hold : ∀ g, (docId, .setGroup g) ∈ l → P g → ∃ d g', (d, .setGroup g') ∈ others l docId ∧ P g') :
    (∃ d g, (d, .setGroup g) ∈ supersede l docId change ∧ P g)
      ↔ ∃ d g, (d, .setGroup g) ∈ l ∧ P g := by
  constructor
  · rintro ⟨d, g, hmem, hg⟩
    rcases mem_supersede.mp hmem with hmem | heq
    · exact ⟨d, g, (mem_others.mp hmem).1, hg⟩
    · exact absurd hg (hnew g (congrArg Prod.snd heq).symm)
  · rintro ⟨d, g, hmem, hg⟩
    by_cases hd : d = docId
    · subst hd
      obtain ⟨d', g', hmem', hg'⟩ := hold g hmem hg
      exact ⟨d', g', mem_supersede.mpr (.inl hmem'), hg'⟩
    · exact ⟨d, g, mem_supersede.mpr (.inl (mem_others.mpr ⟨hmem, hd⟩)), hg⟩

theorem isGroup_supersede {name : JSString} {group : Option GroupSnapshot} (h : IsGroup l name group)
    (hnew : ∀ g, change = .setGroup g → g.name ≠ name)
    (hold : ∀ g, (docId, .setGroup g) ∈ l → g.name = name → GroupNamed (others l docId) name ∧
      ∀ m ∈ g.memberHashes, GroupMember (others l docId) name m) :
    IsGroup (supersede l docId change) name group := by
  have hnamed : GroupNamed (supersede l docId change) name ↔ GroupNamed l name :=
    exists_group_supersede_iff hnew fun g hmem hname => (hold g hmem hname).1
  have hmember : ∀ m, GroupMember (supersede l docId change) name m ↔ GroupMember l name m :=
    fun m => exists_group_supersede_iff (fun g hg hP => hnew g hg hP.1)
      fun g hmem hP => (hold g hmem hP.1).2 m hP.2
  cases group with
  | none => exact fun hn => h (hnamed.mp hn)
  | some group => exact ⟨hnamed.mpr h.1, h.2.1, fun m => (h.2.2 m).trans (hmember m).symm⟩

/-- The group tables say what the latest revisions say. -/
structure GroupsReflect (l : LatestChanges) (x : DirectoryTables) : Prop where
  contributions : Tabulates group? l x.groupContributions
  union : ∀ name, IsGroup l name (x.groupsByName.get? name)

variable [LinearOrder τ] {b : DirectoryStateChainBuilder τ}

/-- A change of another kind leaves the groups, which its document took no part in. -/
theorem GroupsReflect.other {x x' : DirectoryTables} (h : GroupsReflect l x)
    (hin : InPlace l docId change) (hcontributions : x'.groupContributions = x.groupContributions)
    (hgroups : x'.groupsByName = x.groupsByName) (hchange : change.group? = none)
    (hremove : change ≠ .removeGroup) : GroupsReflect (supersede l docId change) x' := by
  have habsent : ∀ g, (docId, .setGroup g) ∉ l := fun g hg =>
    (hin.group g hg).elim (by simp [hchange]) hremove
  refine ⟨?_, fun name => ?_⟩
  · rw [hcontributions]
    refine h.contributions.absent hchange (Option.eq_none_iff_forall_ne_some.mpr fun g hg => ?_)
    exact habsent g ((group_mem_iff h.contributions).mp hg)
  · rw [hgroups]
    refine isGroup_supersede (h.union name) (fun g hg => ?_) fun g hg => absurd hg (habsent g)
    simp [hg, group?] at hchange

/-- **A change in place keeps the groups right.** -/
theorem GroupsReflect.step (h : GroupsReflect l b.tables) (hin : InPlace l docId change) (t : τ) :
    GroupsReflect (supersede l docId change) (change.applyTo b docId t).tables := by
  cases change with
  | setGroup g =>
    have hcontributions := h.contributions.set (k := docId) (b := .setGroup g) (v := g) rfl
    rw [applyTo, tables_applyGroupDoc]
    refine ⟨hcontributions, fun name => ?_⟩
    rw [get?_setOrDelete]
    split
    · subst ‹name = g.name›
      exact isGroup_groupUnion hcontributions g.name
    · rename_i hname
      refine isGroup_supersede (h.union name) (fun g' hg' => ?_) fun g' hg' hname' => ?_
      · obtain rfl := setGroup.inj hg'
        exact Ne.symm hname
      · subst hname'
        exact hin.groupName g' g hg' rfl (Ne.symm hname)
  | removeGroup =>
    rw [applyTo]
    rcases hold : b.tables.groupContributions.get? docId with _ | g
    · rw [tables_removeGroupDoc_of_absent b t hold]
      refine ⟨h.contributions.absent rfl hold, fun name => ?_⟩
      refine isGroup_supersede (h.union name) (by simp) fun g hg => ?_
      rw [← group_mem_iff h.contributions, hold] at hg
      simp at hg
    · rw [tables_removeGroupDoc b t hold]
      have hcontributions := h.contributions.delete (k := docId) (b := .removeGroup) rfl
      refine ⟨hcontributions, fun name => ?_⟩
      rw [get?_setOrDelete]
      split
      · subst ‹name = g.name›
        exact isGroup_groupUnion hcontributions g.name
      · rename_i hname
        refine isGroup_supersede (h.union name) (by simp) fun g' hg' hname' => ?_
        rw [← group_mem_iff h.contributions, hold] at hg'
        exact absurd (Option.some.inj hg' ▸ hname'.symm) hname
  | setGrant g =>
    obtain ⟨_, _, _, hx⟩ := exists_tables_applyGrantDoc b t docId g
    rw [applyTo, hx]
    exact h.other hin rfl rfl rfl (by simp)
  | removeGrant =>
    obtain ⟨_, _, _, hx⟩ := exists_tables_removeGrantDoc b t docId
    rw [applyTo, hx]
    exact h.other hin rfl rfl rfl (by simp)
  | setRule | removeRule | setWitness | removeWitness | other =>
    exact h.other hin rfl rfl rfl (by simp)

end Groups

/-! ## Grants -/

section Union

variable {grant : UserGrantSnapshot} {m : LinkedMap JSString JSString} {key : JSString}

theorem get?_foldl_unionKeys (keys : List JSString) (offset : ℕ) :
    ((keys.zipIdx offset).foldl (fun m (p : JSString × ℕ) =>
        if m.has p.1 then m else m.set p.1 (grant.encryptionKeys[p.2]?.getD "")) m).get? key
      = (m.get? key).or (if key ∈ keys then
          some (grant.encryptionKeys[offset + keys.idxOf key]?.getD "") else none) := by
  induction keys generalizing m offset with
  | nil => simp
  | cons k keys ih =>
    rw [zipIdx_cons, foldl_cons, ih]
    by_cases hk : key = k
    · subst hk
      simp only [mem_cons_self, if_true, idxOf_cons_self, Nat.add_zero]
      split
      · obtain ⟨v, hv⟩ := has_iff.mp ‹_›
        simp [hv]
      · rename_i hhas
        rw [get?_set_self, has_eq_false_iff.mp (by simpa using hhas)]
        simp
    · have hget : (if m.has k then m else
          m.set k (grant.encryptionKeys[offset]?.getD "")).get? key = m.get? key := by
        split
        · rfl
        · exact get?_set_of_ne m _ hk
      simp only [hget, mem_cons, hk, false_or, idxOf_cons_ne _ (Ne.symm hk)]
      rw [Nat.add_assoc, Nat.add_comm 1]

/-- A grant document adds its signing keys that are not in the union yet. -/
theorem get?_unionGrant : (unionGrant m grant).get? key
    = (m.get? key).or
      (if key ∈ grant.signingKeys then some (grant.encryptionKeyOf key) else none) := by
  refine (get?_foldl_unionKeys grant.signingKeys 0).trans ?_
  rw [Nat.zero_add]
  rfl

/-- **In a union of grant documents the first one that lists a signing key sets its encryption
key.** -/
theorem get?_foldl_unionGrant (own : List UserGrantSnapshot) : (own.foldl unionGrant m).get? key
    = (m.get? key).or
      ((own.find? fun g => key ∈ g.signingKeys).map fun g => g.encryptionKeyOf key) := by
  induction own generalizing m with
  | nil => simp
  | cons g own ih =>
    rw [foldl_cons, ih, get?_unionGrant, Option.or_assoc, find?_cons]
    by_cases hg : key ∈ g.signingKeys <;> simp [hg]

end Union

/-- Documents that grant a signing key agree on its user and its encryption key. -/
def GrantsAgree (l : LatestChanges) : Prop :=
  ∀ docId g docId' g', (docId, .setGrant g) ∈ l → (docId', .setGrant g') ∈ l →
    ∀ key ∈ g.signingKeys, key ∈ g'.signingKeys →
      g'.usernameHash = g.usernameHash ∧ g'.encryptionKeyOf key = g.encryptionKeyOf key

section Grants

variable {docId : JSString} {change : DirectoryChange} {m : LinkedMap JSString UserGrantSnapshot}

theorem grant_mem_iff (h : Tabulates grant? l m) {g : UserGrantSnapshot} :
    m.get? docId = some g ↔ (docId, .setGrant g) ∈ l := by
  rw [h docId g]
  simp

theorem isUser_userUnion (h : Tabulates grant? l m) (hagree : GrantsAgree l)
    (usernameHash : JSString) : IsUser l usernameHash (userUnion m usernameHash) := by
  obtain ⟨own, hown⟩ : ∃ own, own = m.values.filter fun c => c.usernameHash = usernameHash := ⟨_, rfl⟩
  have hmem : ∀ g, g ∈ own ↔ ∃ docId, (docId, .setGrant g) ∈ l ∧ g.usernameHash = usernameHash := by
    intro g
    simp only [hown, mem_filter, mem_values_iff, decide_eq_true_eq, grant_mem_iff h,
      exists_and_right]
  have hget : ∀ key, (own.foldl unionGrant ∅).get? key
      = (own.find? fun g => key ∈ g.signingKeys).map fun g => g.encryptionKeyOf key := by
    intro key
    rw [get?_foldl_unionGrant, get?_empty, Option.none_or]
  have hkeys : ∀ key, key ∈ (own.foldl unionGrant ∅).keys ↔ ∃ docId g, (docId, .setGrant g) ∈ l ∧
      g.usernameHash = usernameHash ∧ key ∈ g.signingKeys := by
    intro key
    rw [mem_keys_iff_has, has, hget, Option.isSome_map, find?_isSome]
    simp only [hmem, decide_eq_true_eq]
    exact exists_contribution_iff
  unfold userUnion
  simp only [← hown]
  split
  · rename_i hempty
    rintro ⟨docId, g, hg, hhash⟩
    have hg' := (hmem g).mpr ⟨docId, hg, hhash⟩
    rw [List.isEmpty_iff.mp hempty] at hg'
    simp at hg'
  · rename_i hne
    refine ⟨?_, rfl, hkeys, fun docId g hg hhash key hkey => ?_, fun key => ?_, ?_⟩
    · obtain ⟨g, hg⟩ := exists_mem_of_ne_nil _ fun hnil => hne (List.isEmpty_iff.mpr hnil)
      obtain ⟨docId, hdoc, hhash⟩ := (hmem g).mp hg
      exact ⟨docId, g, hdoc, hhash⟩
    · -- The first document that lists the key agrees with `g` on its encryption key.
      have hlisted : key ∈ (own.foldl unionGrant ∅).keys := (hkeys key).mpr ⟨docId, g, hg, hhash, hkey⟩
      have hfirst : (own.foldl unionGrant ∅).get? key = some (g.encryptionKeyOf key) := by
        rcases hfind : own.find? fun g => key ∈ g.signingKeys with _ | first
        · have hnone := find?_eq_none.mp hfind g ((hmem g).mpr ⟨docId, hg, hhash⟩)
          simp [hkey] at hnone
        · obtain ⟨docId', hg', -⟩ := (hmem first).mp (mem_of_find?_eq_some hfind)
          have hkey' : key ∈ first.signingKeys := by simpa using find?_some hfind
          rw [hget, hfind, Option.map_some, (hagree _ _ _ _ hg hg' key hkey hkey').2]
      rw [UserGrantSnapshot.encryptionKeyOf, getElem?_map, getElem?_idxOf hlisted,
        Option.map_some, hfirst]
      rfl
    · rw [← mem_def, mem_foldl_addAll]
      simp only [notMem_empty, false_or, hmem]
      exact exists_contribution_iff
    · exact decide_eq_true_iff.trans length_pos_iff

/-- The union of a user rests on that user's contributions only. -/
theorem userUnion_congr {m' : LinkedMap JSString UserGrantSnapshot} {usernameHash : JSString}
    (h : m'.values.filter (fun c => c.usernameHash = usernameHash)
      = m.values.filter fun c => c.usernameHash = usernameHash) :
    userUnion m' usernameHash = userUnion m usernameHash := by
  simp only [userUnion, h]

theorem get?_foldl_set (keys : List JSString) (user : UserGrantSnapshot) (key : JSString) :
    (keys.foldl (fun m k => m.set k user) m).get? key
      = if key ∈ keys then some user else m.get? key := by
  induction keys generalizing m with
  | nil => simp
  | cons k keys ih =>
    rw [foldl_cons, ih, get?_set]
    by_cases hk : key ∈ keys <;> by_cases hkey : key = k <;> simp [hk, hkey]

/-- The last active user that lists a signing key is the one it leads to. -/
theorem get?_buildBySigningKey (key : JSString) : (buildBySigningKey m).get? key
    = m.values.reverse.find? fun user => user.active && decide (key ∈ user.signingKeys) := by
  have hfold : ∀ (users : List UserGrantSnapshot) (keys : LinkedMap JSString UserGrantSnapshot),
      (users.foldl (fun bySigningKey user =>
          if user.active then user.signingKeys.foldl (fun m k => m.set k user) bySigningKey
          else bySigningKey) keys).get? key
        = (users.reverse.find? fun user => user.active && decide (key ∈ user.signingKeys)).or
            (keys.get? key) := by
    intro users
    induction users with
    | nil => simp
    | cons user users ih =>
      intro keys
      rw [foldl_cons, ih, reverse_cons, find?_append, Option.or_assoc]
      congr 1
      by_cases hactive : user.active = true
      · rw [if_pos hactive, get?_foldl_set]
        by_cases hkey : key ∈ user.signingKeys <;> simp [hactive, hkey]
      · simp [hactive]
  rw [buildBySigningKey, hfold, get?_empty, Option.or_none]

/-- The grant tables say what the latest revisions say. -/
structure GrantsReflect (l : LatestChanges) (x : DirectoryTables) : Prop where
  contributions : Tabulates grant? l x.grantContributions
  users : ∀ usernameHash,
    x.usersByHash.get? usernameHash = userUnion x.grantContributions usernameHash
  signing : x.bySigningKey = buildBySigningKey x.usersByHash
  agree : GrantsAgree l

theorem GrantsReflect.user {x : DirectoryTables} (h : GrantsReflect l x) (usernameHash : JSString) :
    IsUser l usernameHash (x.usersByHash.get? usernameHash) := by
  rw [h.users]
  exact isUser_userUnion h.contributions h.agree usernameHash

/-- **A signing key leads to the one user that lists it.** -/
theorem GrantsReflect.signingKey {x : DirectoryTables} (h : GrantsReflect l x) (key : JSString)
    (user : UserGrantSnapshot) : x.bySigningKey.get? key = some user ↔
      ∃ usernameHash, x.usersByHash.get? usernameHash = some user ∧ key ∈ user.signingKeys := by
  have hlisted : ∀ {hash u}, x.usersByHash.get? hash = some u → key ∈ u.signingKeys →
      ∃ docId g, (docId, .setGrant g) ∈ l ∧ g.usernameHash = hash ∧ key ∈ g.signingKeys := by
    intro hash u hu hkey
    have huser := h.user hash
    rw [hu] at huser
    exact (huser.2.2.1 key).mp hkey
  rw [h.signing, get?_buildBySigningKey]
  constructor
  · intro hfind
    obtain ⟨hash, hu⟩ :=
      mem_values_iff.mp (mem_reverse.mp (mem_of_find?_eq_some hfind))
    have hprop := find?_some hfind
    rw [Bool.and_eq_true, decide_eq_true_iff] at hprop
    exact ⟨hash, hu, hprop.2⟩
  · rintro ⟨hash, hu, hkey⟩
    have hactive : user.active = true := by
      have huser := h.user hash
      rw [hu] at huser
      exact huser.2.2.2.2.2.mpr (ne_nil_of_mem hkey)
    rcases hfind : x.usersByHash.values.reverse.find?
        fun u => u.active && decide (key ∈ u.signingKeys) with _ | u
    · have hnone := find?_eq_none.mp hfind user
        (mem_reverse.mpr (mem_values_iff.mpr ⟨hash, hu⟩))
      simp [hactive, hkey] at hnone
    · obtain ⟨hash', hu'⟩ :=
        mem_values_iff.mp (mem_reverse.mp (mem_of_find?_eq_some hfind))
      have hprop := find?_some hfind
      rw [Bool.and_eq_true, decide_eq_true_iff] at hprop
      -- Both users are granted the key, so they are one.
      obtain ⟨_, g, hg, rfl, hgkey⟩ := hlisted hu hkey
      obtain ⟨_, g', hg', rfl, hgkey'⟩ := hlisted hu' hprop.2
      rw [(h.agree _ _ _ _ hg hg' key hgkey hgkey').1, hu] at hu'
      exact hfind.trans hu'.symm

/-- A new grant that agrees with the others. -/
theorem grantsAgree_supersede (h : GrantsAgree l) (hin : InPlace l docId change) :
    GrantsAgree (supersede l docId change) := by
  intro d g d' g' hg hg' key hkey hkey'
  rcases mem_supersede.mp hg with hg | heq <;> rcases mem_supersede.mp hg' with hg' | heq'
  · exact h d g d' g' (mem_others.mp hg).1 (mem_others.mp hg').1 key hkey hkey'
  · have hagree := hin.agree g' (congrArg Prod.snd heq').symm d g hg key hkey' hkey
    exact ⟨hagree.1.symm, hagree.2.symm⟩
  · exact hin.agree g (congrArg Prod.snd heq).symm d' g' hg' key hkey hkey'
  · have hgg : setGrant g = .setGrant g' :=
      (congrArg Prod.snd heq).trans (congrArg Prod.snd heq').symm
    obtain rfl := setGrant.inj hgg
    exact ⟨rfl, rfl⟩

variable [LinearOrder τ] {b : DirectoryStateChainBuilder τ}

theorem GrantsReflect.other {x x' : DirectoryTables} (h : GrantsReflect l x)
    (hin : InPlace l docId change) (hcontributions : x'.grantContributions = x.grantContributions)
    (husers : x'.usersByHash = x.usersByHash) (hsigning : x'.bySigningKey = x.bySigningKey)
    (hchange : change.grant? = none) (hremove : change ≠ .removeGrant) :
    GrantsReflect (supersede l docId change) x' := by
  have habsent : ∀ g, (docId, .setGrant g) ∉ l := fun g hg =>
    (hin.grant g hg).elim (by simp [hchange]) hremove
  refine ⟨?_, fun hash => ?_, by rw [hsigning, husers, h.signing], grantsAgree_supersede h.agree hin⟩
  · rw [hcontributions]
    refine h.contributions.absent hchange (Option.eq_none_iff_forall_ne_some.mpr fun g hg => ?_)
    exact habsent g ((grant_mem_iff h.contributions).mp hg)
  · rw [husers, hcontributions, h.users]

/-- Setting a contribution moves no other user. -/
theorem userUnion_set {g : UserGrantSnapshot} {hash : JSString} (hnew : g.usernameHash ≠ hash)
    (hold : ∀ p, m.get? docId = some p → p.usernameHash ≠ hash) :
    userUnion (m.set docId g) hash = userUnion m hash :=
  userUnion_congr (filter_setList (by simpa using hnew) fun p hp => by
    simpa using hold p (mem_toList_iff.mp hp))

theorem userUnion_delete {hash : JSString}
    (hold : ∀ p, m.get? docId = some p → p.usernameHash ≠ hash) :
    userUnion (m.delete docId) hash = userUnion m hash :=
  userUnion_congr (filter_values_delete m fun p hp => by simpa using hold p hp)

/-- **A change in place keeps the grants right.** -/
theorem GrantsReflect.step (h : GrantsReflect l b.tables) (hin : InPlace l docId change) (t : τ) :
    GrantsReflect (supersede l docId change) (change.applyTo b docId t).tables := by
  have hagree := grantsAgree_supersede h.agree hin
  cases change with
  | setGrant g =>
    have hcontributions := h.contributions.set (k := docId) (b := .setGrant g) (v := g) rfl
    rw [applyTo]
    by_cases hmoved : ∃ p, b.tables.grantContributions.get? docId = some p ∧
        p.usernameHash ≠ g.usernameHash
    · -- The user that the document leaves is brought up to date as well.
      obtain ⟨p, hold, hne⟩ := hmoved
      rw [tables_applyGrantDoc_of_moved b t hold hne]
      refine ⟨hcontributions, fun hash => ?_, rfl, hagree⟩
      rw [recomputed, recomputed, get?_setOrDelete, get?_setOrDelete]
      split
      · rw [‹hash = g.usernameHash›]
      · split
        · rw [‹hash = p.usernameHash›]
        · rename_i hnew hleft
          rw [userUnion_set (Ne.symm hnew) fun q hq => ?_, h.users]
          rw [← Option.some.inj (hold.symm.trans hq)]
          exact Ne.symm hleft
    · have hsame : ∀ p, b.tables.grantContributions.get? docId = some p →
          p.usernameHash = g.usernameHash := fun p hp => by
        by_contra hne
        exact hmoved ⟨p, hp, hne⟩
      rw [tables_applyGrantDoc b t hsame]
      refine ⟨hcontributions, fun hash => ?_, rfl, hagree⟩
      rw [recomputed, get?_setOrDelete]
      split
      · rw [‹hash = g.usernameHash›]
      · rename_i hnew
        rw [userUnion_set (Ne.symm hnew) fun q hq => hsame q hq ▸ Ne.symm hnew, h.users]
  | removeGrant =>
    rw [applyTo]
    rcases hold : b.tables.grantContributions.get? docId with _ | p
    · rw [tables_removeGrantDoc_of_absent b t hold]
      exact ⟨h.contributions.absent rfl hold, h.users, h.signing, hagree⟩
    · rw [tables_removeGrantDoc b t hold]
      refine ⟨h.contributions.delete rfl, fun hash => ?_, rfl, hagree⟩
      rw [recomputed, get?_setOrDelete]
      split
      · rw [‹hash = p.usernameHash›]
      · rename_i hne
        rw [userUnion_delete fun q hq => ?_, h.users]
        rw [← Option.some.inj (hold.symm.trans hq)]
        exact Ne.symm hne
  | removeGroup =>
    obtain ⟨_, _, hx⟩ := exists_tables_removeGroupDoc b t docId
    rw [applyTo, hx]
    exact h.other hin rfl rfl rfl rfl (by simp)
  | setGroup | setRule | removeRule | setWitness | removeWitness | other =>
    exact h.other hin rfl rfl rfl rfl (by simp)

end Grants

end MindooDB
