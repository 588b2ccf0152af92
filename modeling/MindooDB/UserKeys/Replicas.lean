import MindooDB.UserKeys.Document

/-!
# UserKeys/Replicas — devices approved on two replicas

Each operation assigns a whole field, so of two replicas that both did, one loses what it added
(`not_userKeyReplicas_kept`).  What an operation writes is a list of edits of that field, and from
them one knows what is lost (`userKeyReplicas_kept_iff`).
-/

namespace MindooDB

open List

/-- The wrap of a generation for a device. -/
def wrapAt (userKeys : UserKeys) (epoch device : JSString) : Option UserKeyDeviceWrap :=
  (userKeys.get? epoch).bind fun gen => gen.deviceWraps.get? device

/-- **A device has its wrap** of a generation. -/
def HasWrap (userKeys : UserKeys) (epoch device : JSString) : Prop :=
  ∃ wrap, wrapAt userKeys epoch device = some wrap ∧ wrap.wrappedKey.isEmpty = false

/-! ## Edits of the wraps -/

structure WrapEdit where
  epoch : JSString
  device : JSString
  wrap : NewWrap
  now : ℤ

namespace WrapEdit

variable (edit : WrapEdit)

def apply (field : Register UserKeys) (edit : WrapEdit) : Register UserKeys :=
  writeDeviceWrap field edit.epoch edit.device edit.wrap.val edit.now

/-- A wrap that is new, or that gets a label. -/
def Writes (userKeys : UserKeys) : Prop :=
  ¬ HasWrap userKeys edit.epoch edit.device ∨
    ∃ wrap, wrapAt userKeys edit.epoch edit.device = some wrap ∧ lacksLabel wrap.label = true ∧
      lacksLabel edit.wrap.val.label = false

end WrapEdit

theorem get?_generationAt (userKeys : UserKeys) (epoch device : JSString) (now : ℤ) :
    (generationAt userKeys epoch now).deviceWraps.get? device = wrapAt userKeys epoch device := by
  rw [generationAt, wrapAt]
  cases userKeys.get? epoch <;> rfl

theorem wrapAt_setDeviceWrap (userKeys : UserKeys) (epoch device : JSString)
    (wrap : UserKeyDeviceWrap) (now : ℤ) (epoch' device' : JSString) :
    wrapAt (setDeviceWrap userKeys epoch device wrap now) epoch' device' =
      if epoch' = epoch ∧ device' = device then some wrap else wrapAt userKeys epoch' device' := by
  rw [wrapAt, setDeviceWrap, LinkedMap.get?_set]
  by_cases hepoch : epoch' = epoch
  · subst hepoch
    rw [if_pos rfl, Option.bind_some, LinkedMap.get?_set, get?_generationAt]
    simp only [true_and]
  · rw [if_neg hepoch, if_neg (fun h => hepoch h.1), wrapAt]

variable {epoch : JSString}

theorem hasWrap_setDeviceWrap {userKeys : UserKeys} {device : JSString}
    {wrap : UserKeyDeviceWrap} (hwrap : wrap.wrappedKey.isEmpty = false) (now : ℤ)
    {epoch' device' : JSString} :
    HasWrap (setDeviceWrap userKeys epoch device wrap now) epoch' device' ↔
      HasWrap userKeys epoch' device' ∨ (epoch' = epoch ∧ device' = device) := by
  rw [HasWrap, wrapAt_setDeviceWrap]
  by_cases h : epoch' = epoch ∧ device' = device
  · rw [if_pos h]
    exact ⟨fun _ => .inr h, fun _ => ⟨wrap, rfl, hwrap⟩⟩
  · rw [if_neg h, or_iff_left h, HasWrap]

/-- **What one edit does**: nothing, when the wrap is there and gets no label. -/
theorem WrapEdit.apply_cases (field : Register UserKeys) (edit : WrapEdit) :
    (¬ edit.Writes field.value ∧ apply field edit = field)
      ∨ edit.Writes field.value ∧ ∃ wrap : UserKeyDeviceWrap, wrap.wrappedKey.isEmpty = false ∧
        apply field edit = field.assign
          (setDeviceWrap field.value edit.epoch edit.device wrap edit.now) := by
  have hhas : HasWrap field.value edit.epoch edit.device ↔ ∃ wrap,
      wrapAt field.value edit.epoch edit.device = some wrap ∧ wrap.wrappedKey.isEmpty = false :=
    Iff.rfl
  rw [apply, writeDeviceWrap, get?_generationAt, Writes, hhas]
  cases wrapAt field.value edit.epoch edit.device with
  | none => exact .inr ⟨.inl (by simp), storedWrap edit.wrap.val, edit.wrap.property, rfl⟩
  | some existing =>
    dsimp only
    by_cases hempty : existing.wrappedKey.isEmpty = true
    · rw [if_pos hempty]
      exact .inr ⟨.inl (by simp [hempty]), storedWrap edit.wrap.val, edit.wrap.property, rfl⟩
    · rw [if_neg hempty]
      rw [Bool.not_eq_true] at hempty
      by_cases hlabel : lacksLabel existing.label = true ∧ lacksLabel edit.wrap.val.label = false
      · rw [if_pos (by simp [hlabel])]
        exact .inr ⟨.inr ⟨existing, rfl, hlabel⟩,
          { existing with label := edit.wrap.val.label }, hempty, rfl⟩
      · rw [if_neg (by simpa using hlabel)]
        refine .inl ⟨?_, rfl⟩
        rintro (h | ⟨wrap, hwrap, h⟩)
        · exact h ⟨existing, rfl, hempty⟩
        · obtain rfl := Option.some.inj hwrap
          exact hlabel h

namespace WrapEdit

variable {field : Register UserKeys} {edit : WrapEdit}

theorem edits_apply (field : Register UserKeys) (edit : WrapEdit) :
    Register.Edits field (apply field edit) := by
  rcases apply_cases field edit with ⟨-, h⟩ | ⟨-, wrap, -, h⟩
  · exact .inl h
  · exact h ▸ Register.edits_assign _ _

theorem apply_eq_iff : apply field edit = field ↔ ¬ edit.Writes field.value := by
  rcases apply_cases field edit with ⟨hwrites, h⟩ | ⟨hwrites, wrap, -, h⟩
  · exact iff_of_true h hwrites
  · refine iff_of_false (fun heq => ?_) (not_not_intro hwrites)
    rw [h] at heq
    exact absurd (congrArg Register.writes heq) (Nat.succ_ne_self _)

theorem hasWrap_apply {device : JSString} : HasWrap (apply field edit).value epoch device ↔
    HasWrap field.value epoch device ∨ (epoch = edit.epoch ∧ device = edit.device) := by
  rcases apply_cases field edit with ⟨hwrites, h⟩ | ⟨-, wrap, hwrap, h⟩
  · rw [h]
    refine (or_iff_left_of_imp ?_).symm
    rintro ⟨rfl, rfl⟩
    exact not_not.mp fun hnot => hwrites (.inl hnot)
  · rw [h]
    exact hasWrap_setDeviceWrap hwrap edit.now

theorem keys_apply (h : edit.epoch ∈ field.value.keys) :
    (apply field edit).value.keys = field.value.keys := by
  rcases apply_cases field edit with ⟨-, heq⟩ | ⟨-, wrap, -, heq⟩
  · rw [heq]
  · rw [heq]
    exact (LinkedMap.keys_set _ _ _).trans (if_pos h)

variable {edits : List WrapEdit}

/-- **The wraps after some edits.** -/
theorem hasWrap_foldl {device : JSString} :
    HasWrap (edits.foldl apply field).value epoch device ↔ HasWrap field.value epoch device
      ∨ ∃ edit ∈ edits, epoch = edit.epoch ∧ device = edit.device := by
  induction edits generalizing field with
  | nil => simp
  | cons edit edits ih => rw [foldl_cons, ih, hasWrap_apply, exists_mem_cons_iff, or_assoc]

theorem keys_foldl (h : ∀ edit ∈ edits, edit.epoch ∈ field.value.keys) :
    (edits.foldl apply field).value.keys = field.value.keys := by
  induction edits generalizing field with
  | nil => rfl
  | cons edit edits ih =>
    obtain ⟨hedit, hrest⟩ := forall_mem_cons.mp h
    have hkeys := keys_apply hedit
    rw [foldl_cons, ih fun other hother => hkeys ▸ hrest other hother, hkeys]

theorem foldl_eq_iff :
    edits.foldl apply field = field ↔ ∀ edit ∈ edits, ¬ edit.Writes field.value := by
  rw [Register.foldl_eq_iff edits_apply]
  exact forall₂_congr fun _ _ => apply_eq_iff

end WrapEdit

/-! ## Edits of the declined devices -/

inductive RejectEdit where
  | decline (device : JSString) (rejected : RejectedUserKeyDevice)
  | clear (device : JSString)

namespace RejectEdit

def apply (field : Register RejectedDevices) : RejectEdit → Register RejectedDevices
  | .decline device rejected => field.assign (field.value.set device rejected)
  | .clear device => clearRejected field device

/-- Whether a device is declined after an edit. -/
def declinedAfter (device : JSString) (declined : Bool) : RejectEdit → Bool
  | .decline device' _ => declined || device = device'
  | .clear device' => declined && device ≠ device'

/-- A device is declined, or one that was declined is no longer. -/
def Writes (rejectedDevices : RejectedDevices) : RejectEdit → Prop
  | .decline _ _ => True
  | .clear device => rejectedDevices.has device = true

variable {field : Register RejectedDevices} {edit : RejectEdit}

theorem edits_apply (field : Register RejectedDevices) (edit : RejectEdit) :
    Register.Edits field (apply field edit) := by
  cases edit with
  | decline device rejected => exact Register.edits_assign _ _
  | clear device =>
    rw [apply, clearRejected]
    split_ifs
    · exact Register.edits_assign _ _
    · exact Register.Edits.refl _

theorem apply_eq_iff : apply field edit = field ↔ ¬ edit.Writes field.value := by
  have hassign : ∀ value, field.assign value ≠ field := fun value heq =>
    absurd (congrArg Register.writes heq) (Nat.succ_ne_self _)
  cases edit with
  | decline device rejected => exact iff_of_false (hassign _) (not_not_intro trivial)
  | clear device =>
    rw [apply, clearRejected, Writes]
    split_ifs with h
    · exact iff_of_false (hassign _) (not_not_intro h)
    · exact iff_of_true rfl h

theorem has_apply (device : JSString) :
    (apply field edit).value.has device = edit.declinedAfter device (field.value.has device) := by
  cases edit with
  | decline device' rejected =>
    rw [apply, declinedAfter, Register.assign, LinkedMap.has_set, Bool.or_comm]
  | clear device' =>
    rw [apply, clearRejected, declinedAfter]
    split_ifs with h
    · rw [Register.assign, LinkedMap.has_delete, Bool.and_comm]
    · by_cases hd : device = device'
      · rw [hd, Bool.eq_false_iff.mpr h, Bool.false_and]
      · rw [decide_eq_true hd, Bool.and_true]

variable {edits : List RejectEdit}

/-- **The declined devices after some edits.** -/
theorem has_foldl (device : JSString) :
    (edits.foldl apply field).value.has device =
      edits.foldl (declinedAfter device) (field.value.has device) := by
  induction edits generalizing field with
  | nil => rfl
  | cons edit edits ih => rw [foldl_cons, foldl_cons, ih, has_apply]

theorem foldl_eq_iff :
    edits.foldl apply field = field ↔ ∀ edit ∈ edits, ¬ edit.Writes field.value := by
  rw [Register.foldl_eq_iff edits_apply]
  exact forall₂_congr fun _ _ => apply_eq_iff

/-- A device that is declined in the end however it began. -/
theorem foldl_declinedAfter_mono {device : JSString} {declined : Bool}
    (h : edits.foldl (declinedAfter device) false = true) :
    edits.foldl (declinedAfter device) declined = true := by
  suffices hmono : ∀ b b' : Bool, (b = true → b' = true) →
      edits.foldl (declinedAfter device) b = true → edits.foldl (declinedAfter device) b' = true from
    hmono false declined (fun hfalse => nomatch hfalse) h
  clear h
  induction edits with
  | nil => exact fun b b' => id
  | cons edit edits ih =>
    intro b b' hb
    refine ih _ _ ?_
    cases edit with
    | decline device' rejected =>
      simp only [declinedAfter, Bool.or_eq_true]
      exact Or.imp_left hb
    | clear device' =>
      simp only [declinedAfter, Bool.and_eq_true]
      exact And.imp_left hb

/-- Where nothing is declined, nothing gets declined. -/
theorem foldl_declinedAfter_false {device : JSString}
    (h : ∀ edit ∈ edits, ∃ device', edit = clear device') :
    edits.foldl (declinedAfter device) false = false := by
  induction edits with
  | nil => rfl
  | cons edit edits ih =>
    obtain ⟨⟨device', rfl⟩, hrest⟩ := forall_mem_cons.mp h
    exact ih hrest

end RejectEdit

/-! ## Operations as edits -/

namespace UserKeyDeviceOp

variable (op : UserKeyDeviceOp) (epochs : List JSString)

/-- The device that an operation is about. -/
def device : UserKeyDeviceOp → JSString
  | .wrapUserKeyForGrantDevice fingerprint _ _ => fingerprint
  | .approveUserKeyDevice fingerprint _ _ _ => fingerprint
  | .declineUserKeyDevice fingerprint _ => fingerprint
  | .undoDeclineUserKeyDevice fingerprint => fingerprint

/-- The wraps of a device, a generation each. -/
def wrapEditsOf (device : JSString) (wraps : JSString → Option NewWrap) (now : ℤ) : List WrapEdit :=
  epochs.filterMap fun epoch => (wraps epoch).map fun wrap => ⟨epoch, device, wrap, now⟩

/-- **What an operation wraps**, with the generations of the document. -/
def wrapEdits : UserKeyDeviceOp → List WrapEdit
  | .wrapUserKeyForGrantDevice fingerprint wraps now => wrapEditsOf epochs fingerprint wraps now
  | .approveUserKeyDevice fingerprint active wraps now =>
    if active then wrapEditsOf epochs fingerprint wraps now else []
  | _ => []

/-- **What an operation declines**, or no longer. -/
def rejectEdits : UserKeyDeviceOp → List RejectEdit
  | .approveUserKeyDevice fingerprint active wraps _ =>
    if active && epochs.any fun epoch => (wraps epoch).isSome then [.clear fingerprint] else []
  | .declineUserKeyDevice fingerprint rejected => [.decline fingerprint rejected]
  | .undoDeclineUserKeyDevice fingerprint => [.clear fingerprint]
  | _ => []

variable {op epochs}

theorem device_of_mem_wrapEdits {edit : WrapEdit} (h : edit ∈ op.wrapEdits epochs) :
    edit.device = op.device ∧ edit.epoch ∈ epochs := by
  have hof : ∀ {device wraps now}, edit ∈ wrapEditsOf epochs device wraps now →
      edit.device = device ∧ edit.epoch ∈ epochs := by
    intro device wraps now h
    obtain ⟨epoch, hepoch, hmap⟩ := mem_filterMap.mp h
    obtain ⟨wrap, -, rfl⟩ := Option.map_eq_some_iff.mp hmap
    exact ⟨rfl, hepoch⟩
  cases op with
  | wrapUserKeyForGrantDevice fingerprint wraps now => exact hof h
  | approveUserKeyDevice fingerprint active wraps now =>
    rw [wrapEdits] at h
    split_ifs at h
    · exact hof h
    · exact nomatch h
  | declineUserKeyDevice fingerprint rejected => exact nomatch h
  | undoDeclineUserKeyDevice fingerprint => exact nomatch h

end UserKeyDeviceOp

namespace UserKeyDocument

variable {doc : UserKeyDocument}

theorem writeWraps_eq (field : Register UserKeys) (epochs : List JSString) (device : JSString)
    (wraps : JSString → Option NewWrap) (now : ℤ) :
    writeWraps field epochs device wraps now =
      (UserKeyDeviceOp.wrapEditsOf epochs device wraps now).foldl WrapEdit.apply field := by
  rw [writeWraps]
  induction epochs generalizing field with
  | nil => rfl
  | cons epoch epochs ih =>
    rw [foldl_cons, ih, UserKeyDeviceOp.wrapEditsOf, UserKeyDeviceOp.wrapEditsOf]
    cases h : wraps epoch with
    | none => rw [filterMap_cons_none (by rw [h]; rfl)]
    | some wrap =>
      rw [filterMap_cons_some (b := ⟨epoch, device, wrap, now⟩) (by rw [h]; rfl)]
      rfl

/-- Nothing is wrapped when no wrap can be made. -/
theorem wrapEditsOf_eq_nil {epochs : List JSString} {device : JSString}
    {wraps : JSString → Option NewWrap} {now : ℤ}
    (h : (epochs.any fun epoch => (wraps epoch).isSome) = false) :
    UserKeyDeviceOp.wrapEditsOf epochs device wraps now = [] := by
  rw [any_eq_false] at h
  refine filterMap_eq_nil_iff.mpr fun epoch hepoch => ?_
  rw [Option.map_eq_none_iff]
  simpa using h epoch hepoch

/-- **An operation makes its edits.** -/
theorem run_eq (op : UserKeyDeviceOp) : doc.run op =
    { userKeys := (op.wrapEdits doc.epochs).foldl WrapEdit.apply doc.userKeys
      rejectedDevices := (op.rejectEdits doc.epochs).foldl RejectEdit.apply doc.rejectedDevices } := by
  cases op with
  | wrapUserKeyForGrantDevice fingerprint wraps now =>
    rw [run, writeWraps_eq]
    rfl
  | approveUserKeyDevice fingerprint active wraps now =>
    rw [run, writeWraps_eq, UserKeyDeviceOp.wrapEdits, UserKeyDeviceOp.rejectEdits]
    cases active with
    | false => rfl
    | true =>
      cases h : doc.epochs.any fun epoch => (wraps epoch).isSome with
      | true => rfl
      | false =>
        rw [if_pos rfl, wrapEditsOf_eq_nil h]
        rfl
  | declineUserKeyDevice fingerprint rejected => rfl
  | undoDeclineUserKeyDevice fingerprint => rfl

theorem mem_keys_of_mem_epochs {epoch : JSString} (h : epoch ∈ doc.epochs) :
    epoch ∈ doc.userKeys.value.keys := by
  rw [epochs, mem_reverse, epochsNewestFirst, mem_sortBy] at h
  exact (mem_filter.mp h).1

/-- No operation adds a generation. -/
theorem epochs_run (op : UserKeyDeviceOp) : (doc.run op).epochs = doc.epochs := by
  have hkeys : (doc.run op).userKeys.value.keys = doc.userKeys.value.keys := by
    rw [run_eq]
    exact WrapEdit.keys_foldl fun edit hedit =>
      mem_keys_of_mem_epochs (UserKeyDeviceOp.device_of_mem_wrapEdits hedit).2
  rw [epochs, epochs, epochsNewestFirst, epochsNewestFirst, hkeys]

/-- **A run of operations makes their edits.** -/
theorem runs_eq (ops : List UserKeyDeviceOp) : doc.runs ops =
    { userKeys := (ops.flatMap fun op => op.wrapEdits doc.epochs).foldl WrapEdit.apply doc.userKeys
      rejectedDevices := (ops.flatMap fun op => op.rejectEdits doc.epochs).foldl RejectEdit.apply
        doc.rejectedDevices } := by
  induction ops generalizing doc with
  | nil => rfl
  | cons op ops ih =>
    rw [runs, foldl_cons, ← runs, ih, epochs_run, run_eq, flatMap_cons, flatMap_cons,
      foldl_append, foldl_append]

end UserKeyDocument

/-! ## What two replicas keep -/

section Replicas

variable (base : UserKeyDocument) (ops : List UserKeyDeviceOp)

abbrev wrapEdits : List WrapEdit := ops.flatMap fun op => op.wrapEdits base.epochs

abbrev rejectEdits : List RejectEdit := ops.flatMap fun op => op.rejectEdits base.epochs

/-- A device is declined by some operations, and not approved or taken back by later ones. -/
def Declined (device : JSString) : Prop :=
  (rejectEdits base ops).foldl (RejectEdit.declinedAfter device) false = true

/-- **Nothing that a replica did is lost**: a device has its wrap of every generation that it was
wrapped for, and a declined one is declined. -/
structure EditsKept (merged : UserKeyDocument) : Prop where
  approved : ∀ edit ∈ wrapEdits base ops,
    HasWrap merged.userKeys.value edit.epoch edit.device
  declined : ∀ device, Declined base ops device →
    merged.rejectedDevices.value.has device = true

/-! ### The condition -/

/-- Some device is given a wrap that it did not have, or a label for one. -/
def WritesWraps : Prop := ∃ edit ∈ wrapEdits base ops, edit.Writes base.userKeys.value

/-- Some device is given a wrap that it did not have. -/
def AddsWrap : Prop :=
  ∃ edit ∈ wrapEdits base ops, ¬ HasWrap base.userKeys.value edit.epoch edit.device

/-- Some device is declined, or one that was declined is no longer. -/
def WritesDeclined : Prop := ∃ edit ∈ rejectEdits base ops, edit.Writes base.rejectedDevices.value

/-- Some device is declined that was not. -/
def AddsDeclined : Prop :=
  ∃ device, Declined base ops device ∧ base.rejectedDevices.value.has device = false

variable {base ops}

/-- A device that no operation is about is declined as it was. -/
theorem foldl_declinedAfter_of_forall_ne {device : JSString}
    (h : ∀ op ∈ ops, op.device ≠ device) (declined : Bool) :
    (rejectEdits base ops).foldl (RejectEdit.declinedAfter device) declined = declined := by
  induction ops with
  | nil => rfl
  | cons op ops ih =>
    obtain ⟨hop, hops⟩ := forall_mem_cons.mp h
    rw [rejectEdits, flatMap_cons, foldl_append]
    have hsame : (op.rejectEdits base.epochs).foldl (RejectEdit.declinedAfter device) declined
        = declined := by
      cases op with
      | wrapUserKeyForGrantDevice fingerprint wraps now => rfl
      | approveUserKeyDevice fingerprint active wraps now =>
        rw [UserKeyDeviceOp.rejectEdits]
        split_ifs
        · have hne : device ≠ fingerprint := Ne.symm hop
          simp [RejectEdit.declinedAfter, hne]
        · rfl
      | declineUserKeyDevice fingerprint rejected | undoDeclineUserKeyDevice fingerprint =>
        have hne : device ≠ fingerprint := Ne.symm hop
        simp [UserKeyDeviceOp.rejectEdits, RejectEdit.declinedAfter, hne]
    rw [hsame]
    exact ih hops

/-- A device that some operations decline is one that they are about. -/
theorem Declined.exists_device {device : JSString} (h : Declined base ops device) :
    ∃ op ∈ ops, op.device = device := by
  by_contra hnone
  have hsame := @foldl_declinedAfter_of_forall_ne base ops device
    (fun op hop heq => hnone ⟨op, hop, heq⟩) false
  rw [Declined, hsame] at h
  exact nomatch h

/-- **Who declines a device writes.** -/
theorem Declined.writes {device : JSString} (h : Declined base ops device) :
    WritesDeclined base ops := by
  by_contra hnone
  refine Bool.false_ne_true (Eq.trans ?_ h)
  rw [eq_comm]
  refine RejectEdit.foldl_declinedAfter_false fun edit hedit => ?_
  cases edit with
  | decline device' rejected => exact absurd ⟨_, hedit, trivial⟩ hnone
  | clear device' => exact ⟨device', rfl⟩

variable {winner loser : List UserKeyDeviceOp}
  (hdevices : ∀ op ∈ winner, ∀ op' ∈ loser, op.device ≠ op'.device)

include hdevices

/-- **The wraps that are kept**, when those of one replica win. -/
theorem approved_iff {field : Register UserKeys}
    (hmerge : ((base.runs winner).userKeys = base.userKeys → field = (base.runs loser).userKeys)
      ∧ ((base.runs winner).userKeys ≠ base.userKeys → field = (base.runs winner).userKeys)) :
    ((∀ edit ∈ wrapEdits base winner, HasWrap field.value edit.epoch edit.device)
        ∧ ∀ edit ∈ wrapEdits base loser, HasWrap field.value edit.epoch edit.device)
      ↔ ¬ (WritesWraps base winner ∧ AddsWrap base loser) := by
  have hsame : (base.runs winner).userKeys = base.userKeys ↔ ¬ WritesWraps base winner := by
    rw [UserKeyDocument.runs_eq, WrapEdit.foldl_eq_iff, WritesWraps]
    push Not
    rfl
  have hhas : ∀ (ops : List UserKeyDeviceOp) (epoch device : JSString),
      HasWrap (base.runs ops).userKeys.value epoch device ↔ HasWrap base.userKeys.value epoch device
        ∨ ∃ edit ∈ wrapEdits base ops, epoch = edit.epoch ∧ device = edit.device := by
    intro ops epoch device
    rw [UserKeyDocument.runs_eq]
    exact WrapEdit.hasWrap_foldl
  by_cases hwrites : WritesWraps base winner
  · rw [hmerge.2 (hsame.not.mpr (not_not_intro hwrites))]
    have hother : ∀ edit ∈ wrapEdits base loser,
        HasWrap (base.runs winner).userKeys.value edit.epoch edit.device ↔
          HasWrap base.userKeys.value edit.epoch edit.device := by
      intro edit hedit
      rw [hhas]
      refine or_iff_left ?_
      rintro ⟨other, hother, -, hdevice⟩
      obtain ⟨op', hop', hedit'⟩ := mem_flatMap.mp hedit
      obtain ⟨op, hop, hother'⟩ := mem_flatMap.mp hother
      refine hdevices op hop op' hop' ?_
      rw [← (UserKeyDeviceOp.device_of_mem_wrapEdits hother').1, ← hdevice,
        (UserKeyDeviceOp.device_of_mem_wrapEdits hedit').1]
    constructor
    · rintro ⟨-, hkept⟩ ⟨-, edit, hedit, hnot⟩
      exact hnot ((hother edit hedit).mp (hkept edit hedit))
    · intro h
      refine ⟨fun edit hedit => (hhas winner _ _).mpr (.inr ⟨edit, hedit, rfl, rfl⟩), ?_⟩
      intro edit hedit
      by_contra hnot
      exact h ⟨hwrites, edit, hedit, fun hbase => hnot ((hother edit hedit).mpr hbase)⟩
  · rw [hmerge.1 (hsame.mpr hwrites)]
    refine iff_of_true ⟨fun edit hedit => ?_, fun edit hedit => ?_⟩ fun h => hwrites h.1
    · refine (hhas loser _ _).mpr (.inl ?_)
      by_contra hnot
      exact hwrites ⟨edit, hedit, .inl hnot⟩
    · exact (hhas loser _ _).mpr (.inr ⟨edit, hedit, rfl, rfl⟩)

/-- **The devices that stay declined**, when those of one replica win. -/
theorem declined_iff {field : Register RejectedDevices}
    (hmerge : ((base.runs winner).rejectedDevices = base.rejectedDevices →
        field = (base.runs loser).rejectedDevices)
      ∧ ((base.runs winner).rejectedDevices ≠ base.rejectedDevices →
        field = (base.runs winner).rejectedDevices)) :
    ((∀ device, Declined base winner device → field.value.has device = true)
        ∧ ∀ device, Declined base loser device → field.value.has device = true)
      ↔ ¬ (WritesDeclined base winner ∧ AddsDeclined base loser) := by
  have hsame : (base.runs winner).rejectedDevices = base.rejectedDevices
      ↔ ¬ WritesDeclined base winner := by
    rw [UserKeyDocument.runs_eq, RejectEdit.foldl_eq_iff, WritesDeclined]
    push Not
    rfl
  have hhas : ∀ (ops : List UserKeyDeviceOp) (device : JSString),
      (base.runs ops).rejectedDevices.value.has device =
        (rejectEdits base ops).foldl (RejectEdit.declinedAfter device)
          (base.rejectedDevices.value.has device) := by
    intro ops device
    rw [UserKeyDocument.runs_eq]
    exact RejectEdit.has_foldl device
  have hown : ∀ ops device, Declined base ops device →
      (base.runs ops).rejectedDevices.value.has device = true := by
    intro ops device h
    rw [hhas]
    exact RejectEdit.foldl_declinedAfter_mono h
  by_cases hwrites : WritesDeclined base winner
  · rw [hmerge.2 (hsame.not.mpr (not_not_intro hwrites))]
    have hother : ∀ device, Declined base loser device →
        (base.runs winner).rejectedDevices.value.has device
          = base.rejectedDevices.value.has device := by
      intro device h
      obtain ⟨op', hop', rfl⟩ := h.exists_device
      rw [hhas]
      exact foldl_declinedAfter_of_forall_ne (fun op hop => hdevices op hop op' hop') _
    constructor
    · rintro ⟨-, hkept⟩ ⟨-, device, hdeclined, hnot⟩
      have hhas' := hkept device hdeclined
      rw [hother device hdeclined, hnot] at hhas'
      exact nomatch hhas'
    · intro h
      refine ⟨hown winner, fun device hdeclined => ?_⟩
      rw [hother device hdeclined]
      by_contra hnot
      exact h ⟨hwrites, device, hdeclined, Bool.eq_false_iff.mpr hnot⟩
  · rw [hmerge.1 (hsame.mpr hwrites)]
    exact iff_of_true ⟨fun device hdeclined => absurd hdeclined.writes hwrites, hown loser⟩
      fun h => hwrites h.1

end Replicas

/-! ## The replicas -/

/-- **When nothing that two replicas did is lost**: the one whose map of wraps wins has not written
to it, or the other has added nothing there; and likewise with the declined devices. -/
theorem userKeyReplicas_kept_iff (base : UserKeyDocument) (left right : List UserKeyDeviceOp)
    (hdevices : ∀ op ∈ left, ∀ op' ∈ right, op.device ≠ op'.device) (leftWins : Bool × Bool) :
    (EditsKept base left (base.merge (base.runs left) (base.runs right) leftWins)
        ∧ EditsKept base right (base.merge (base.runs left) (base.runs right) leftWins))
      ↔ ¬ (WritesWraps base (if leftWins.1 then left else right)
            ∧ AddsWrap base (if leftWins.1 then right else left))
          ∧ ¬ (WritesDeclined base (if leftWins.2 then left else right)
            ∧ AddsDeclined base (if leftWins.2 then right else left)) := by
  have hdevices' : ∀ op ∈ right, ∀ op' ∈ left, op.device ≠ op'.device :=
    fun op hop op' hop' => (hdevices op' hop' op hop).symm
  have hwraps : ∀ ops, Register.Edits base.userKeys (base.runs ops).userKeys := by
    intro ops
    rw [UserKeyDocument.runs_eq]
    exact Register.Edits.foldl WrapEdit.edits_apply _ _
  have hrejects : ∀ ops, Register.Edits base.rejectedDevices (base.runs ops).rejectedDevices := by
    intro ops
    rw [UserKeyDocument.runs_eq]
    exact Register.Edits.foldl RejectEdit.edits_apply _ _
  have hparts : ∀ {ops merged}, EditsKept base ops merged ↔
      (∀ edit ∈ wrapEdits base ops, HasWrap merged.userKeys.value edit.epoch edit.device)
        ∧ ∀ device, Declined base ops device → merged.rejectedDevices.value.has device = true :=
    fun {_ _} => ⟨fun h => ⟨h.approved, h.declined⟩, fun h => ⟨h.1, h.2⟩⟩
  obtain ⟨wrapsLeft, rejectsLeft⟩ := leftWins
  rw [hparts, hparts, and_and_and_comm]
  refine and_congr ?_ ?_
  · cases wrapsLeft with
    | true => exact approved_iff hdevices (Register.merge_left (hwraps left))
    | false =>
      exact and_comm.trans
        (approved_iff hdevices' (Register.merge_right (hwraps left) (hwraps right)))
  · cases rejectsLeft with
    | true => exact declined_iff hdevices (Register.merge_left (hrejects left))
    | false =>
      exact and_comm.trans
        (declined_iff hdevices' (Register.merge_right (hrejects left) (hrejects right)))

/-- A document with one generation, that no device has. -/
def unwrappedUserKeys : UserKeyDocument where
  userKeys := ⟨(∅ : UserKeys).set "1"
    { publicKey := "pk", fingerprint := "fp", createdAt := 0, deviceWraps := ∅ }, 0⟩
  rejectedDevices := ⟨∅, 0⟩

def newWrap : NewWrap :=
  ⟨{ wrappedKey := "w", approvedAt := 0, approvedBySigningPublicKey := "k" }, by decide⟩

def approveOf (fingerprint : JSString) : UserKeyDeviceOp :=
  .approveUserKeyDevice fingerprint true (fun _ => some newWrap) 0

/-- A laptop is approved here and a phone declined there. -/
theorem userKeyReplicas_kept_iff_laptopAndPhone :
    (EditsKept unwrappedUserKeys [approveOf "laptop"]
        (unwrappedUserKeys.merge (unwrappedUserKeys.runs [approveOf "laptop"])
          (unwrappedUserKeys.runs [.declineUserKeyDevice "phone" ⟨none, 0, "k"⟩]) (true, true))
      ∧ EditsKept unwrappedUserKeys [.declineUserKeyDevice "phone" ⟨none, 0, "k"⟩]
        (unwrappedUserKeys.merge (unwrappedUserKeys.runs [approveOf "laptop"])
          (unwrappedUserKeys.runs [.declineUserKeyDevice "phone" ⟨none, 0, "k"⟩]) (true, true))) := by
  refine (userKeyReplicas_kept_iff unwrappedUserKeys [approveOf "laptop"]
    [.declineUserKeyDevice "phone" ⟨none, 0, "k"⟩] ?_ (true, true)).mpr ⟨?_, ?_⟩
  · decide
  · rintro ⟨-, edit, hedit, -⟩
    exact nomatch hedit
  · rintro ⟨⟨edit, hedit, hwrites⟩, -⟩
    have hedits : rejectEdits unwrappedUserKeys [approveOf "laptop"] = [.clear "laptop"] := by
      rw [rejectEdits, flatMap_singleton, approveOf, UserKeyDeviceOp.rejectEdits, if_pos]
      decide +kernel
    change edit ∈ rejectEdits unwrappedUserKeys [approveOf "laptop"] at hedit
    rw [hedits, mem_singleton] at hedit
    subst hedit
    exact nomatch hwrites

/-- **Of two devices approved on two replicas, one may lose its wrap.** -/
theorem not_userKeyReplicas_kept :
    ¬ ∀ (base : UserKeyDocument) (left right : List UserKeyDeviceOp),
      (∀ op ∈ left, ∀ op' ∈ right, op.device ≠ op'.device) → ∀ leftWins : Bool × Bool,
        EditsKept base left (base.merge (base.runs left) (base.runs right) leftWins)
          ∧ EditsKept base right (base.merge (base.runs left) (base.runs right) leftWins) := by
  intro h
  have hkept := (h unwrappedUserKeys [approveOf "laptop"] [approveOf "phone"] (by decide)
    (true, true)).2.approved
  have hedit : ⟨"1", "phone", newWrap, 0⟩ ∈ wrapEdits unwrappedUserKeys [approveOf "phone"] := by
    rw [wrapEdits, flatMap_singleton, approveOf, UserKeyDeviceOp.wrapEdits, if_pos rfl]
    exact mem_filterMap.mpr ⟨"1", by decide +kernel, rfl⟩
  obtain ⟨wrap, hwrap, -⟩ := hkept _ hedit
  have hnone : wrapAt (unwrappedUserKeys.merge (unwrappedUserKeys.runs [approveOf "laptop"])
      (unwrappedUserKeys.runs [approveOf "phone"]) (true, true)).userKeys.value "1" "phone"
        = none := by decide +kernel
  exact nomatch hnone.symm.trans hwrap

end MindooDB
