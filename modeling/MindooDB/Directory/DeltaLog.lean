import MindooDB.Directory.StateNode
import MindooDB.Lib.Run

/-!
# Directory/DeltaLog — the chain from its log

`exportDeltaLog` and `importDeltaLog` of `core/accesscontrol/DirectoryStateNode.ts`.  An operation
of the builder that changes something logs one delta, and replaying the delta does just what the
operation has done (`logs_applyTo`): `applyGrant` logs the grant document that it applies, `setGroups`
the groups without their keys.  So a builder that imports the log is the builder that has exported
it (`importDeltaLog_exportDeltaLog`).
-/

namespace MindooDB

variable {τ : Type*} [LinearOrder τ]

/-! ## Replaying a log -/

/-- Replay one delta. -/
def DirectoryRevisionDelta.replay (b : DirectoryStateChainBuilder τ) :
    DirectoryRevisionDelta τ → DirectoryStateChainBuilder τ
  | defaultPolicy t policy => b.applyDefaultPolicy policy t
  | dbPolicy t dbid policy => b.applyDbPolicy dbid policy t
  | rule t aclRule => b.applyRule aclRule t
  | removeRule t ruleId ruleType => b.removeRule ruleId ruleType t
  | trustedWitness t witness => b.applyTrustedWitness witness t
  | removeTrustedWitness t witnessPublicKey => b.removeTrustedWitness witnessPublicKey t
  | grant t snapshot => b.applyGrant snapshot t
  | grantDoc t docId snapshot => b.applyGrantDoc docId snapshot t
  | removeGrantDoc t docId => b.removeGrantDoc docId t
  | revokeBySigningKey t signingKey => b.revokeBySigningKey signingKey t
  | groupDoc t docId name memberHashes => b.applyGroupDoc docId name memberHashes t
  | removeGroupDoc t docId => b.removeGroupDoc docId t
  | setGroups t groups => b.setGroups (LinkedMap.ofList (groups.map fun g => (g.name, g))) t

namespace DirectoryStateChainBuilder

/-- Back to the genesis node, whatever the builder was. -/
def reset [OrderBot τ] (_b : DirectoryStateChainBuilder τ) : DirectoryStateChainBuilder τ := fresh

/-- The log of its revisions. -/
def exportDeltaLog (b : DirectoryStateChainBuilder τ) : List (DirectoryRevisionDelta τ) :=
  b.deltaLog

/-- The chain that a log gives again. -/
def importDeltaLog [OrderBot τ] (b : DirectoryStateChainBuilder τ)
    (deltas : List (DirectoryRevisionDelta τ)) : DirectoryStateChainBuilder τ :=
  deltas.foldl DirectoryRevisionDelta.replay b.reset

end DirectoryStateChainBuilder

/-! ## The operations -/

/-- Groups under their own names. -/
structure KeyedGroups where
  groups : LinkedMap JSString GroupSnapshot
  keyed : ∀ e ∈ groups.toList, e.2.name = e.1

/-- The keys of groups under their own names are read off them. -/
theorem KeyedGroups.ofList_values (g : KeyedGroups) :
    LinkedMap.ofList (g.groups.values.map fun group => (group.name, group)) = g.groups := by
  have hlist : g.groups.values.map (fun group => (group.name, group)) = g.groups.toList := by
    rw [LinkedMap.values, List.map_map]
    refine (List.map_congr_left fun e he => ?_).trans (List.map_id _)
    exact Prod.ext (g.keyed e he) rfl
  rw [hlist]
  exact LinkedMap.ext (LinkedMap.toList_ofList g.groups.nodupKeys)

/-- An operation of the builder. -/
inductive ChainOperation (τ : Type*) where
  | applyDefaultPolicy (policy : DefaultAccessPolicyDoc) (trustedTime : τ)
  | applyDbPolicy (dbid : JSString) (policy : DefaultAccessPolicyDoc) (trustedTime : τ)
  | applyRule (rule : AclRuleDoc) (trustedTime : τ)
  | removeRule (ruleId : JSString) (ruleType : RuleType) (trustedTime : τ)
  | applyTrustedWitness (witness : TrustedWitnessDoc) (trustedTime : τ)
  | removeTrustedWitness (witnessPublicKey : JSString) (trustedTime : τ)
  | applyGrant (grant : UserGrantSnapshot) (trustedTime : τ)
  | applyGrantDoc (docId : JSString) (grant : UserGrantSnapshot) (trustedTime : τ)
  | removeGrantDoc (docId : JSString) (trustedTime : τ)
  | revokeBySigningKey (signingKey : JSString) (trustedTime : τ)
  | applyGroupDoc (docId name : JSString) (memberHashes : List JSString) (trustedTime : τ)
  | removeGroupDoc (docId : JSString) (trustedTime : τ)
  | setGroups (groups : KeyedGroups) (trustedTime : τ)

namespace ChainOperation

def applyTo (b : DirectoryStateChainBuilder τ) :
    ChainOperation τ → DirectoryStateChainBuilder τ
  | applyDefaultPolicy policy t => b.applyDefaultPolicy policy t
  | applyDbPolicy dbid policy t => b.applyDbPolicy dbid policy t
  | applyRule rule t => b.applyRule rule t
  | removeRule ruleId ruleType t => b.removeRule ruleId ruleType t
  | applyTrustedWitness witness t => b.applyTrustedWitness witness t
  | removeTrustedWitness witnessPublicKey t => b.removeTrustedWitness witnessPublicKey t
  | applyGrant grant t => b.applyGrant grant t
  | applyGrantDoc docId grant t => b.applyGrantDoc docId grant t
  | removeGrantDoc docId t => b.removeGrantDoc docId t
  | revokeBySigningKey signingKey t => b.revokeBySigningKey signingKey t
  | applyGroupDoc docId name memberHashes t => b.applyGroupDoc docId name memberHashes t
  | removeGroupDoc docId t => b.removeGroupDoc docId t
  | setGroups groups t => b.setGroups groups.groups t

end ChainOperation

namespace DirectoryStateChainBuilder

variable {b : DirectoryStateChainBuilder τ} {t : τ}

/-! ## What the operations log -/

theorem deltaLog_applyGrantDoc (docId : JSString) (grant : UserGrantSnapshot) :
    (b.applyGrantDoc docId grant t).deltaLog = b.deltaLog ++ [.grantDoc t docId grant] := by
  rw [applyGrantDoc]
  cases b.grantContributions.get? docId with
  | none => rfl
  | some previous =>
    change (recomputeUser (if previous.usernameHash ≠ grant.usernameHash then _ else _) _ _).deltaLog
      = _
    split <;> rfl

/-- **Every operation logs what it does.** -/
theorem logs_applyTo : Run.Logs (σ := DirectoryStateChainBuilder τ) ChainOperation.applyTo
    DirectoryRevisionDelta.replay exportDeltaLog := by
  intro b operation
  cases operation with
  | applyDefaultPolicy policy t => exact .inr ⟨.defaultPolicy t policy, rfl, rfl⟩
  | applyDbPolicy dbid policy t => exact .inr ⟨.dbPolicy t dbid policy, rfl, rfl⟩
  | applyRule rule t => exact .inr ⟨.rule t rule, rfl, rfl⟩
  | removeRule ruleId ruleType t => exact .inr ⟨.removeRule t ruleId ruleType, rfl, rfl⟩
  | applyTrustedWitness witness t => exact .inr ⟨.trustedWitness t witness, rfl, rfl⟩
  | removeTrustedWitness key t => exact .inr ⟨.removeTrustedWitness t key, rfl, rfl⟩
  | applyGrant grant t =>
    exact Or.inr ⟨.grantDoc t ("grant:" ++ grant.usernameHash) grant, rfl,
      deltaLog_applyGrantDoc _ grant⟩
  | applyGrantDoc docId grant t =>
    exact .inr ⟨.grantDoc t docId grant, rfl, deltaLog_applyGrantDoc docId grant⟩
  | removeGrantDoc docId t =>
    cases h : b.grantContributions.get? docId with
    | none => exact .inl (by rw [ChainOperation.applyTo, removeGrantDoc, h])
    | some existing =>
      refine .inr ⟨.removeGrantDoc t docId, rfl, ?_⟩
      rw [ChainOperation.applyTo, removeGrantDoc, h]
      rfl
  | revokeBySigningKey signingKey t =>
    cases h : grantForSigningKey b.head.state signingKey with
    | none => exact .inl (by rw [ChainOperation.applyTo, revokeBySigningKey, h])
    | some grant =>
      refine .inr ⟨.revokeBySigningKey t signingKey, rfl, ?_⟩
      rw [ChainOperation.applyTo, revokeBySigningKey, h]
      rfl
  | applyGroupDoc docId name memberHashes t =>
    exact .inr ⟨.groupDoc t docId name memberHashes, rfl, rfl⟩
  | removeGroupDoc docId t =>
    cases h : b.groupContributions.get? docId with
    | none => exact .inl (by rw [ChainOperation.applyTo, removeGroupDoc, h])
    | some existing =>
      refine .inr ⟨.removeGroupDoc t docId, rfl, ?_⟩
      rw [ChainOperation.applyTo, removeGroupDoc, h]
      rfl
  | setGroups groups t =>
    refine .inr ⟨.setGroups t groups.groups.values, ?_, rfl⟩
    rw [DirectoryRevisionDelta.replay, groups.ofList_values, ChainOperation.applyTo]

/-! ## The round trip -/

/-- **A builder that imports the log of another is at all times in the other's states, and stays so
whatever is applied to both.** -/
theorem importDeltaLog_exportDeltaLog [OrderBot τ] (b : DirectoryStateChainBuilder τ)
    (operations : List (ChainOperation τ)) :
    let original := Run.run ChainOperation.applyTo fresh operations
    let restored := b.importDeltaLog original.exportDeltaLog
    (∀ T, restored.getStateAt T = original.getStateAt T)
      ∧ ∀ further, Run.run ChainOperation.applyTo restored further
        = Run.run ChainOperation.applyTo original further := by
  intro original restored
  have hrestored : restored = original := logs_applyTo.replay_run rfl operations
  rw [hrestored]
  exact ⟨fun _ => rfl, fun _ => rfl⟩

end DirectoryStateChainBuilder

end MindooDB
