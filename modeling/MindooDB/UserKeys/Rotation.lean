import MindooDB.Lib.JsonTree
import MindooDB.UserKeys.Document

/-!
# UserKeys/Rotation — rotating the user key

`rotateUserKey` of `UserKeyManager.ts`, and how a device opens a generation
(`privateKeyBytesForEpoch`).  What an awaited call gives comes with the rotation, `none` where it
throws.  The new pair is put into the session before the document is written: a call that throws in
between leaves the session with a pair that is no generation of the document (`allOrNothing_iff`).
-/

namespace MindooDB

open LinkedMap List Option

abbrev KeyBytes := List UInt8

/-- What a key wrapped for a device is stored as. -/
abbrev WrappedKey := {wrappedKey : JSString // wrappedKey.isEmpty = false}

structure EncryptionKeyPair where
  publicKey : JSString
  /-- Encrypted with the password. -/
  privateKey : JSString
  deriving DecidableEq

/-- The manager's part of a session, and the device it runs on. -/
structure KeySession where
  userKeyPair : Option EncryptionKeyPair
  decryptedUserKeyBytes : Option KeyBytes := none
  decryptedUserKeyCache : Option KeyBytes := none
  seededBytesMatchLocalPublic : Option Bool := none
  seededBytesVerifiedForPublicKey : Option JSString := none
  currentUserPassword : JSString
  deviceFingerprint : JSString
  deviceKey : Option KeyBytes

/-- The cryptography of user keys; `none` where it throws. -/
structure UserKeyCrypto where
  /-- Whether what the public key seals is opened with the bytes. -/
  opensSealed : JSString → KeyBytes → Bool
  decryptPrivateKey : JSString → JSString → Option KeyBytes
  unwrapPrivateKeyFromDevice : JSString → KeyBytes → Option KeyBytes

/-! ## Opening a generation -/

namespace KeySession

variable (crypto : UserKeyCrypto) (session : KeySession) (userKeys : UserKeys)

def seededBytesBelongToLocalPublicKey (publicKey : JSString) : Bool × KeySession :=
  if session.seededBytesMatchLocalPublic.isSome
      && session.seededBytesVerifiedForPublicKey = some publicKey then
    (session.seededBytesMatchLocalPublic = some true, session)
  else
    match session.decryptedUserKeyBytes with
    | none => (false, session)
    | some bytes =>
      let found := crypto.opensSealed publicKey bytes
      (found, { session with
        seededBytesMatchLocalPublic := some found
        seededBytesVerifiedForPublicKey := some publicKey })

/-- The key from this device's wrap, if there is one that opens. -/
def unwrapOwn (gen : UserKeyGeneration) : Option KeyBytes := do
  let deviceKey ← session.deviceKey
  let wrap ← gen.deviceWraps.get? session.deviceFingerprint
  if wrap.wrappedKey.isEmpty then none
  else crypto.unwrapPrivateKeyFromDevice wrap.wrappedKey deviceKey

def ownDeviceWrapPrivateKeyBytes (publicKey : JSString) : Option KeyBytes :=
  (epochsNewestFirst userKeys).findSome? fun epoch => do
    let gen ← userKeys.get? epoch
    if gen.publicKey ≠ publicKey then none else session.unwrapOwn crypto gen

/-- The bytes that belong to the pair from now on. -/
def keepBytes (publicKey : JSString) (bytes : KeyBytes) : KeySession :=
  { session with
    decryptedUserKeyBytes := some bytes
    seededBytesMatchLocalPublic := some true
    seededBytesVerifiedForPublicKey := some publicKey }

/-- By the password, or else by the wrap of this device. -/
def recoverBytes (pair : EncryptionKeyPair) : Option KeyBytes × KeySession :=
  match if session.currentUserPassword.isEmpty then none
    else crypto.decryptPrivateKey pair.privateKey session.currentUserPassword with
  | some bytes => (some bytes, session.keepBytes pair.publicKey bytes)
  | none =>
    match session.ownDeviceWrapPrivateKeyBytes crypto userKeys pair.publicKey with
    | some bytes =>
      (some bytes, { session.keepBytes pair.publicKey bytes with decryptedUserKeyCache := none })
    | none => (none, session)

def getDecryptedUserKeyBytes : Option KeyBytes × KeySession :=
  match session.userKeyPair, session.decryptedUserKeyBytes with
  | none, bytes => (bytes, session)
  | some pair, none => session.recoverBytes crypto userKeys pair
  | some pair, some bytes =>
    match session.seededBytesBelongToLocalPublicKey crypto pair.publicKey with
    | (true, session) => (some bytes, session)
    | (false, session) => session.recoverBytes crypto userKeys pair

def getLocalUserPublicKey : Option JSString :=
  (session.userKeyPair.map EncryptionKeyPair.publicKey).filter fun publicKey => !publicKey.isEmpty

def privateKeyBytesForEpoch (epoch : JSString) : Option KeyBytes × KeySession :=
  match userKeys.get? epoch with
  | none => (none, session)
  | some gen =>
    if session.getLocalUserPublicKey = some gen.publicKey then
      match session.getDecryptedUserKeyBytes crypto userKeys with
      | (some bytes, session) => (some bytes, session)
      | (none, session) => (session.unwrapOwn crypto gen, session)
    else (session.unwrapOwn crypto gen, session)

end KeySession

/-! ## The newest generation -/

def newerEpoch (a b : JSString) : JSString := if epochNumber a > epochNumber b then a else b

def currentUserKeyEpoch (userKeys : UserKeys) : Option JSString :=
  match userKeys.keys.filter isEpoch with
  | [] => none
  | epoch :: epochs => some (epochs.foldl newerEpoch epoch)

theorem foldl_newerEpoch (epochs : List JSString) (epoch : JSString) :
    epochs.foldl newerEpoch epoch ∈ epoch :: epochs
      ∧ ∀ e ∈ epoch :: epochs, epochNumber e ≤ epochNumber (epochs.foldl newerEpoch epoch) := by
  induction epochs generalizing epoch with
  | nil => exact ⟨mem_cons_self, fun e he => by rw [mem_singleton.mp he]; rfl⟩
  | cons next epochs ih =>
    obtain ⟨hmem, hle⟩ := ih (newerEpoch epoch next)
    have hstep : (newerEpoch epoch next = epoch ∨ newerEpoch epoch next = next)
        ∧ epochNumber epoch ≤ epochNumber (newerEpoch epoch next)
        ∧ epochNumber next ≤ epochNumber (newerEpoch epoch next) := by
      unfold newerEpoch
      split_ifs with h
      · exact ⟨.inl rfl, le_refl _, h.le⟩
      · exact ⟨.inr rfl, not_lt.mp h, le_refl _⟩
    have hnewest := hle _ mem_cons_self
    refine ⟨?_, fun e he => ?_⟩
    · rcases mem_cons.mp hmem with heq | hmem
      · rcases hstep.1 with h | h
        · exact mem_cons.mpr (.inl (heq.trans h))
        · exact mem_cons_of_mem _ (mem_cons.mpr (.inl (heq.trans h)))
      · exact mem_cons_of_mem _ (mem_cons_of_mem _ hmem)
    · rcases mem_cons.mp he with rfl | he
      · exact hstep.2.1.trans hnewest
      · rcases mem_cons.mp he with rfl | he
        · exact hstep.2.2.trans hnewest
        · exact hle e (mem_cons_of_mem _ he)

/-- **The current epoch** is one of the document, and none of it is newer. -/
theorem currentUserKeyEpoch_spec {userKeys : UserKeys} {current : JSString}
    (h : currentUserKeyEpoch userKeys = some current) : current ∈ userKeys.keys
      ∧ isEpoch current = true
      ∧ ∀ epoch ∈ userKeys.keys, isEpoch epoch = true → epochNumber epoch ≤ epochNumber current := by
  unfold currentUserKeyEpoch at h
  split at h
  · cases h
  · rename_i epoch epochs hepochs
    cases h
    obtain ⟨hmem, hle⟩ := foldl_newerEpoch epochs epoch
    rw [← hepochs] at hmem hle
    obtain ⟨hkey, hepoch⟩ := mem_filter.mp hmem
    exact ⟨hkey, hepoch, fun e he hisEpoch => hle e (mem_filter.mpr ⟨he, hisEpoch⟩)⟩

/-- An epoch above all others is the current one. -/
theorem currentUserKeyEpoch_eq_some {userKeys : UserKeys} {newest : JSString}
    (hmem : newest ∈ userKeys.keys) (hepoch : isEpoch newest = true)
    (habove : ∀ epoch ∈ userKeys.keys, isEpoch epoch = true → epoch ≠ newest →
      epochNumber epoch < epochNumber newest) : currentUserKeyEpoch userKeys = some newest := by
  cases h : currentUserKeyEpoch userKeys with
  | none =>
    unfold currentUserKeyEpoch at h
    split at h
    · rename_i hnone
      have hfiltered := mem_filter.mpr ⟨hmem, hepoch⟩
      rw [hnone] at hfiltered
      exact nomatch hfiltered
    · cases h
  | some current =>
    obtain ⟨hcurrent, hisEpoch, hle⟩ := currentUserKeyEpoch_spec h
    by_contra hne
    have hlt := habove current hcurrent hisEpoch fun heq => hne (congrArg some heq)
    have hge := hle newest hmem hepoch
    omega

/-- `(BigInt(current) + 1n).toString()`. -/
def nextEpoch (current : JSString) : JSString := JSString.ofNat (epochNumber current + 1)

theorem epochNumber_ofNat (n : ℕ) : epochNumber (JSString.ofNat n) = n := by
  refine Eq.trans ?_ (JsonTree.digits_spec n).2.2.2
  simp only [epochNumber, JsonTree.digitsValue, Nat.mul_comm]

theorem isEpoch_ofNat (n : ℕ) : isEpoch (JSString.ofNat n) = true := by
  obtain ⟨hdigits, hne, -, -⟩ := JsonTree.digits_spec n
  unfold isEpoch JSString.isEmpty
  rw [Bool.and_eq_true, Bool.not_eq_true', isEmpty_eq_false_iff, List.all_eq_true]
  refine ⟨hne, fun unit hunit => ?_⟩
  have hdigit := hdigits unit hunit
  rw [JsonTree.isDigit, Bool.and_eq_true, decide_eq_true_eq, decide_eq_true_eq] at hdigit
  exact decide_eq_true hdigit

/-- **The next epoch is free.** -/
theorem has_nextEpoch {userKeys : UserKeys} {current : JSString}
    (h : currentUserKeyEpoch userKeys = some current) :
    userKeys.has (nextEpoch current) = false := by
  obtain ⟨-, -, hle⟩ := currentUserKeyEpoch_spec h
  by_contra hhas
  have hmem := LinkedMap.mem_keys_iff_has.mpr (Bool.of_not_eq_false hhas)
  have hnext := hle _ hmem (isEpoch_ofNat _)
  rw [nextEpoch, epochNumber_ofNat] at hnext
  omega

/-! ## Rotation -/

/-- A device of the grant, and what the calls about it give. -/
structure ActiveDevice where
  label : Option JSString
  fingerprint : Option JSString
  wrappedKey : Option WrappedKey

/-- What the calls of one rotation give. -/
structure RotationCalls where
  /-- Whether the document is found. -/
  resolved : Bool
  generated : Option (JSString × KeyBytes)
  encrypted : Option JSString
  fingerprint : Option JSString
  userSigningPublicKey : Option JSString
  activeDevices : Option (List ActiveDevice)
  /-- Whether the document is written. -/
  written : Bool
  now : ℤ

namespace RotationCalls

variable (calls : RotationCalls)

def newDeviceWraps (userSigningPublicKey : JSString)
    (previousWraps : LinkedMap JSString UserKeyDeviceWrap) :
    List ActiveDevice → LinkedMap JSString UserKeyDeviceWrap →
      Option (LinkedMap JSString UserKeyDeviceWrap)
  | [], deviceWraps => some deviceWraps
  | device :: devices, deviceWraps => do
    let deviceFp ← device.fingerprint
    if !previousWraps.has deviceFp then
      newDeviceWraps userSigningPublicKey previousWraps devices deviceWraps
    else
      let wrappedKey ← device.wrappedKey
      newDeviceWraps userSigningPublicKey previousWraps devices (deviceWraps.set deviceFp
        { wrappedKey := wrappedKey.val
          label := device.label.filter fun label => !label.isEmpty
          approvedAt := calls.now
          approvedBySigningPublicKey := userSigningPublicKey })

/-- The generations that are written. -/
def rotatedUserKeys (userKeys : UserKeys) (current : JSString) (gen : UserKeyGeneration)
    (publicKey : JSString) : Option UserKeys := do
  let fingerprint ← calls.fingerprint
  let signer ← calls.userSigningPublicKey
  let devices ← calls.activeDevices
  let deviceWraps ← calls.newDeviceWraps signer gen.deviceWraps devices ∅
  if calls.written then
    return (userKeys.set current { gen with retiredAt := some calls.now }).set (nextEpoch current)
      { publicKey, fingerprint, createdAt := calls.now, deviceWraps }
  else none

end RotationCalls

/-- A session and the user-key document. -/
structure Rotating where
  session : KeySession
  userKeys : UserKeys

/-- Whether it returns, and what is there afterwards. -/
def rotateUserKey (calls : RotationCalls) (before : Rotating) : Bool × Rotating :=
  match if calls.resolved then currentUserKeyEpoch before.userKeys else none with
  | none => (false, before)
  | some current =>
    match before.userKeys.get? current, before.userKeys.has (nextEpoch current) with
    | some gen, false =>
      match calls.generated, calls.encrypted with
      | some (publicKey, privateKeyBytes), some encrypted =>
        let session := { before.session with
          userKeyPair := some ⟨publicKey, encrypted⟩
          decryptedUserKeyBytes := some privateKeyBytes
          decryptedUserKeyCache := none }
        match calls.rotatedUserKeys before.userKeys current gen publicKey with
        | some userKeys => (true, ⟨session, userKeys⟩)
        | none => (false, { before with session })
      | _, _ => (false, before)
    | _, _ => (false, before)

/-! ## All or nothing -/

/-- **The session's pair is one of the generations.** -/
def Rotating.PairPublished (s : Rotating) : Prop :=
  ∀ pair, s.session.userKeyPair = some pair →
    ∃ epoch gen, s.userKeys.get? epoch = some gen ∧ gen.publicKey = pair.publicKey

/-- **A device can open the newest generation.** -/
def CanOpenNewest (crypto : UserKeyCrypto) (device : KeySession) (userKeys : UserKeys) : Prop :=
  ∃ epoch, currentUserKeyEpoch userKeys = some epoch
    ∧ (device.privateKeyBytesForEpoch crypto userKeys epoch).1.isSome

/-- **A rotation that was carried out**: every active device that had a wrap of the newest generation
has one of the new one, and no wrap of an old one is gone. -/
structure Rotated (calls : RotationCalls) (before after : Rotating) : Prop where
  wraps : ∀ current gen, currentUserKeyEpoch before.userKeys = some current →
    before.userKeys.get? current = some gen → ∃ epoch newGen,
      currentUserKeyEpoch after.userKeys = some epoch ∧ before.userKeys.get? epoch = none
      ∧ after.userKeys.get? epoch = some newGen
      ∧ (∀ pair ∈ after.session.userKeyPair, newGen.publicKey = pair.publicKey)
      ∧ ∀ devices, calls.activeDevices = some devices → ∀ device ∈ devices, ∀ fingerprint,
        device.fingerprint = some fingerprint → gen.deviceWraps.has fingerprint = true →
        ∃ wrap, newGen.deviceWraps.get? fingerprint = some wrap
          ∧ ∃ sibling ∈ devices, sibling.fingerprint = some fingerprint
            ∧ sibling.wrappedKey.map Subtype.val = some wrap.wrappedKey
  keeps : ∀ epoch gen, before.userKeys.get? epoch = some gen →
    ∃ gen', after.userKeys.get? epoch = some gen' ∧ gen'.publicKey = gen.publicKey
      ∧ gen'.deviceWraps = gen.deviceWraps

/-- **All or nothing**, for a rotation from a state. -/
structure AllOrNothing (crypto : UserKeyCrypto) (calls : RotationCalls) (before : Rotating) :
    Prop where
  published : (rotateUserKey calls before).2.PairPublished
  /-- A failed rotation takes nothing from this device, nor from any other. -/
  opens : (rotateUserKey calls before).1 = false →
    (CanOpenNewest crypto before.session before.userKeys →
      CanOpenNewest crypto (rotateUserKey calls before).2.session
        (rotateUserKey calls before).2.userKeys)
    ∧ ∀ device, CanOpenNewest crypto device before.userKeys →
      CanOpenNewest crypto device (rotateUserKey calls before).2.userKeys
  rotated : (rotateUserKey calls before).1 = true →
    Rotated calls before (rotateUserKey calls before).2

namespace RotationCalls

variable (calls : RotationCalls) (userKeys : UserKeys)

/-- **The calls up to the new pair's return**: there is a generation, and a pair is generated and
encrypted. -/
def ReplacesPair : Prop :=
  calls.resolved = true ∧ (currentUserKeyEpoch userKeys).isSome ∧ calls.generated.isSome
    ∧ calls.encrypted.isSome

/-- A device is skipped, or its wrap is made. -/
def WrapsDevice (device : ActiveDevice) : Prop :=
  ∃ fingerprint, device.fingerprint = some fingerprint ∧
    ((∃ current gen, currentUserKeyEpoch userKeys = some current
      ∧ userKeys.get? current = some gen ∧ gen.deviceWraps.has fingerprint = true) →
        device.wrappedKey.isSome)

/-- **The calls after that return**: the devices are found and wrapped for, and the document is
written. -/
structure Publishes : Prop where
  fingerprint : calls.fingerprint.isSome
  userSigningPublicKey : calls.userSigningPublicKey.isSome
  wraps : ∃ devices, calls.activeDevices = some devices ∧
    ∀ device ∈ devices, WrapsDevice userKeys device
  written : calls.written = true

/-- **A new key is none of the document.** -/
def FreshKey : Prop :=
  ∀ publicKey bytes, calls.generated = some (publicKey, bytes) →
    ∀ epoch gen, userKeys.get? epoch = some gen → gen.publicKey ≠ publicKey

end RotationCalls

/-! ## The wraps of the new generation -/

section Wraps

variable {calls : RotationCalls} {signer : JSString}
  {previousWraps deviceWraps deviceWraps' : LinkedMap JSString UserKeyDeviceWrap}
  {devices : List ActiveDevice}

theorem isSome_newDeviceWraps_iff :
    (calls.newDeviceWraps signer previousWraps devices deviceWraps).isSome ↔
      ∀ device ∈ devices, ∃ fingerprint, device.fingerprint = some fingerprint ∧
        (previousWraps.has fingerprint = true → device.wrappedKey.isSome) := by
  induction devices generalizing deviceWraps with
  | nil => exact ⟨nofun, fun _ => rfl⟩
  | cons device devices ih =>
    rw [forall_mem_cons, RotationCalls.newDeviceWraps]
    cases hfp : device.fingerprint with
    | none => exact ⟨nofun, fun h => absurd h.1.choose_spec.1 nofun⟩
    | some deviceFp =>
      have hhead {P : JSString → Prop} :
          (∃ fingerprint, some deviceFp = some fingerprint ∧ P fingerprint) ↔ P deviceFp :=
        ⟨fun ⟨_, heq, hP⟩ => some.inj heq ▸ hP, fun hP => ⟨deviceFp, rfl, hP⟩⟩
      rw [hhead, bind_eq_bind, bind_some]
      cases hprevious : previousWraps.has deviceFp with
      | false =>
        rw [if_pos (by rfl), ih]
        exact ⟨fun h => ⟨nofun, h⟩, And.right⟩
      | true =>
        rw [if_neg (by decide)]
        cases hwrapped : device.wrappedKey with
        | none => exact ⟨nofun, fun h => absurd (h.1 rfl) nofun⟩
        | some wrappedKey =>
          rw [bind_eq_bind, bind_some, ih]
          exact ⟨fun h => ⟨fun _ => rfl, h⟩, And.right⟩

/-- **A device with a previous wrap has a new one**, made for it or for one of its fingerprint. -/
theorem get?_newDeviceWraps {fingerprint : JSString}
    (h : calls.newDeviceWraps signer previousWraps devices deviceWraps = some deviceWraps')
    {Made : UserKeyDeviceWrap → Prop}
    (hmade : ∀ device ∈ devices, device.fingerprint = some fingerprint → ∀ wrap,
      device.wrappedKey.map Subtype.val = some wrap.wrappedKey → Made wrap)
    (hwrapped : (∃ wrap, deviceWraps.get? fingerprint = some wrap ∧ Made wrap)
      ∨ previousWraps.has fingerprint = true
        ∧ ∃ device ∈ devices, device.fingerprint = some fingerprint) :
    ∃ wrap, deviceWraps'.get? fingerprint = some wrap ∧ Made wrap := by
  induction devices generalizing deviceWraps with
  | nil =>
    cases h
    rcases hwrapped with hwrap | ⟨-, device, hdevice, -⟩
    · exact hwrap
    · exact nomatch hdevice
  | cons device devices ih =>
    have hmade' := fun d hd => hmade d (mem_cons_of_mem device hd)
    rw [RotationCalls.newDeviceWraps] at h
    cases hfp : device.fingerprint with
    | none =>
      rw [hfp] at h
      cases h
    | some deviceFp =>
      rw [hfp, bind_eq_bind, bind_some] at h
      cases hprevious : previousWraps.has deviceFp with
      | false =>
        rw [hprevious, if_pos (by rfl)] at h
        refine ih h hmade' (hwrapped.imp id ?_)
        rintro ⟨hhas, d, hd, hdfp⟩
        rcases mem_cons.mp hd with rfl | hd
        · rw [some.inj (hfp.symm.trans hdfp), hhas] at hprevious
          cases hprevious
        · exact ⟨hhas, d, hd, hdfp⟩
      | true =>
        rw [hprevious, if_neg (by decide)] at h
        cases hkey : device.wrappedKey with
        | none =>
          rw [hkey] at h
          cases h
        | some wrappedKey =>
          rw [hkey, bind_eq_bind, bind_some] at h
          refine ih h hmade' ?_
          by_cases hsame : fingerprint = deviceFp
          · subst hsame
            refine .inl ⟨_, get?_set_self _ _ _, ?_⟩
            exact hmade device mem_cons_self hfp _ (by rw [hkey]; rfl)
          · rw [get?_set_of_ne _ _ hsame]
            refine hwrapped.imp id ?_
            rintro ⟨hhas, d, hd, hdfp⟩
            rcases mem_cons.mp hd with rfl | hd
            · exact absurd (some.inj (hdfp.symm.trans hfp)) hsame
            · exact ⟨hhas, d, hd, hdfp⟩

end Wraps

/-! ## The rotated document -/

section Rotated

variable {calls : RotationCalls} {before : Rotating} {userKeys userKeys' : UserKeys}
  {current publicKey : JSString} {gen : UserKeyGeneration}

theorem wrapsDevice_iff (hcurrent : currentUserKeyEpoch userKeys = some current)
    (hgen : userKeys.get? current = some gen) (device : ActiveDevice) :
    RotationCalls.WrapsDevice userKeys device ↔
      ∃ fingerprint, device.fingerprint = some fingerprint ∧
        (gen.deviceWraps.has fingerprint = true → device.wrappedKey.isSome) := by
  refine exists_congr fun fingerprint => and_congr_right fun _ =>
    imp_congr_left ⟨?_, fun hhas => ⟨current, gen, hcurrent, hgen, hhas⟩⟩
  rintro ⟨current', gen', hcurrent', hgen', hhas⟩
  obtain rfl := some.inj (hcurrent.symm.trans hcurrent')
  obtain rfl := some.inj (hgen.symm.trans hgen')
  exact hhas

theorem isSome_rotatedUserKeys_iff (hcurrent : currentUserKeyEpoch userKeys = some current)
    (hgen : userKeys.get? current = some gen) (publicKey : JSString) :
    (calls.rotatedUserKeys userKeys current gen publicKey).isSome ↔ calls.Publishes userKeys := by
  have hwraps (signer : JSString) (devices : List ActiveDevice) :
      (calls.newDeviceWraps signer gen.deviceWraps devices ∅).isSome ↔
        ∀ device ∈ devices, RotationCalls.WrapsDevice userKeys device :=
    isSome_newDeviceWraps_iff.trans (forall₂_congr fun device _ =>
      (wrapsDevice_iff hcurrent hgen device).symm)
  constructor
  · intro h
    obtain ⟨userKeys', h⟩ := isSome_iff_exists.mp h
    obtain ⟨fingerprint, hfingerprint, h⟩ := bind_eq_some_iff.mp h
    obtain ⟨signer, hsigner, h⟩ := bind_eq_some_iff.mp h
    obtain ⟨devices, hdevices, h⟩ := bind_eq_some_iff.mp h
    obtain ⟨deviceWraps, hdeviceWraps, h⟩ := bind_eq_some_iff.mp h
    refine ⟨isSome_of_eq_some hfingerprint, isSome_of_eq_some hsigner,
      ⟨devices, hdevices, (hwraps signer devices).mp (isSome_of_eq_some hdeviceWraps)⟩, ?_⟩
    by_contra hwritten
    rw [if_neg hwritten] at h
    cases h
  · intro h
    obtain ⟨fingerprint, hfingerprint⟩ := isSome_iff_exists.mp h.fingerprint
    obtain ⟨signer, hsigner⟩ := isSome_iff_exists.mp h.userSigningPublicKey
    obtain ⟨devices, hdevices, hall⟩ := h.wraps
    obtain ⟨deviceWraps, hdeviceWraps⟩ := isSome_iff_exists.mp ((hwraps signer devices).mpr hall)
    rw [RotationCalls.rotatedUserKeys, hfingerprint, hsigner, hdevices]
    simp only [bind_eq_bind, bind_some, hdeviceWraps, h.written, if_true]
    rfl

/-- What was written: the old generation retired, and the new one. -/
theorem eq_of_rotatedUserKeys
    (h : calls.rotatedUserKeys userKeys current gen publicKey = some userKeys') :
    ∃ signer devices newGen, calls.activeDevices = some devices
      ∧ calls.newDeviceWraps signer gen.deviceWraps devices ∅ = some newGen.deviceWraps
      ∧ newGen.publicKey = publicKey
      ∧ userKeys' = (userKeys.set current { gen with retiredAt := some calls.now }).set
        (nextEpoch current) newGen := by
  obtain ⟨fingerprint, -, h⟩ := bind_eq_some_iff.mp h
  obtain ⟨signer, -, h⟩ := bind_eq_some_iff.mp h
  obtain ⟨devices, hdevices, h⟩ := bind_eq_some_iff.mp h
  obtain ⟨deviceWraps, hdeviceWraps, h⟩ := bind_eq_some_iff.mp h
  split_ifs at h with hwritten
  exact ⟨signer, devices, ⟨publicKey, fingerprint, calls.now, none, deviceWraps⟩, hdevices,
    hdeviceWraps, rfl, (some.inj h).symm⟩

/-- **The new epoch is the current one.** -/
theorem currentUserKeyEpoch_rotated (hcurrent : currentUserKeyEpoch userKeys = some current)
    (retired newGen : UserKeyGeneration) :
    currentUserKeyEpoch ((userKeys.set current retired).set (nextEpoch current) newGen)
      = some (nextEpoch current) := by
  obtain ⟨hmem, -, hle⟩ := currentUserKeyEpoch_spec hcurrent
  refine currentUserKeyEpoch_eq_some ((LinkedMap.mem_keys_set _ _ _ _).mpr (.inl rfl))
    (isEpoch_ofNat _) fun epoch hepoch hisEpoch hne => ?_
  have hold : epoch ∈ userKeys.keys := by
    rcases (LinkedMap.mem_keys_set _ _ _ _).mp hepoch with heq | hepoch
    · exact absurd heq hne
    · rcases (LinkedMap.mem_keys_set _ _ _ _).mp hepoch with rfl | hepoch
      · exact hmem
      · exact hepoch
  have hbelow := hle epoch hold hisEpoch
  rw [nextEpoch, epochNumber_ofNat]
  omega

theorem rotated_of_eq {session : KeySession} {encrypted : JSString}
    (hcurrent : currentUserKeyEpoch before.userKeys = some current)
    (hgen : before.userKeys.get? current = some gen)
    (hpair : session.userKeyPair = some ⟨publicKey, encrypted⟩)
    (h : calls.rotatedUserKeys before.userKeys current gen publicKey = some userKeys') :
    Rotated calls before ⟨session, userKeys'⟩ := by
  obtain ⟨signer, devices, newGen, hdevices, hdeviceWraps, hpublicKey, rfl⟩ :=
    eq_of_rotatedUserKeys h
  have hfree := LinkedMap.has_eq_false_iff.mp (has_nextEpoch hcurrent)
  refine ⟨fun current' gen' hcurrent' hgen' => ?_, fun epoch old hold => ?_⟩
  · obtain rfl := some.inj (hcurrent.symm.trans hcurrent')
    obtain rfl := some.inj (hgen.symm.trans hgen')
    refine ⟨nextEpoch current, newGen, currentUserKeyEpoch_rotated hcurrent _ _, hfree,
      get?_set_self _ _ _, ?_, ?_⟩
    · intro pair hmem
      obtain rfl := some.inj (hpair.symm.trans hmem)
      exact hpublicKey
    · intro devices' hdevices' device hdevice fingerprint hfingerprint hprevious
      obtain rfl := some.inj (hdevices.symm.trans hdevices')
      exact get?_newDeviceWraps hdeviceWraps
        (fun sibling hsibling hfp wrap hwrap => ⟨sibling, hsibling, hfp, hwrap⟩)
        (.inr ⟨hprevious, device, hdevice, hfingerprint⟩)
  · have hne : epoch ≠ nextEpoch current := by
      rintro rfl
      rw [hfree] at hold
      cases hold
    rw [get?_set_of_ne _ _ hne]
    by_cases hsame : epoch = current
    · subst hsame
      obtain rfl := some.inj (hgen.symm.trans hold)
      exact ⟨_, get?_set_self _ _ _, rfl, rfl⟩
    · rw [get?_set_of_ne _ _ hsame]
      exact ⟨old, hold, rfl, rfl⟩

/-! ## The run of a rotation -/

/-- **A call before the pair's replacement throws**: nothing has changed. -/
theorem rotateUserKey_of_not_replacesPair (h : ¬calls.ReplacesPair before.userKeys) :
    rotateUserKey calls before = (false, before) := by
  unfold rotateUserKey
  split
  · rfl
  · rename_i current hcurrent
    split_ifs at hcurrent with hresolved
    split
    · split
      · rename_i hgenerated hencrypted
        exact absurd ⟨hresolved, isSome_of_eq_some hcurrent,
          isSome_of_eq_some hgenerated, isSome_of_eq_some hencrypted⟩ h
      · rfl
    · rfl

/-- **The pair is replaced**, and the document is written or not. -/
theorem rotateUserKey_of_replacesPair (h : calls.ReplacesPair before.userKeys) :
    ∃ current gen publicKey bytes encrypted session,
      currentUserKeyEpoch before.userKeys = some current
      ∧ before.userKeys.get? current = some gen
      ∧ calls.generated = some (publicKey, bytes)
      ∧ session.userKeyPair = some ⟨publicKey, encrypted⟩
      ∧ session.deviceFingerprint = before.session.deviceFingerprint
      ∧ rotateUserKey calls before =
        match calls.rotatedUserKeys before.userKeys current gen publicKey with
        | some userKeys => (true, ⟨session, userKeys⟩)
        | none => (false, ⟨session, before.userKeys⟩) := by
  obtain ⟨hresolved, hcurrent, hgenerated, hencrypted⟩ := h
  obtain ⟨current, hcurrent⟩ := isSome_iff_exists.mp hcurrent
  obtain ⟨⟨publicKey, bytes⟩, hgenerated⟩ := isSome_iff_exists.mp hgenerated
  obtain ⟨encrypted, hencrypted⟩ := isSome_iff_exists.mp hencrypted
  obtain ⟨gen, hgen⟩ := LinkedMap.mem_keys_iff.mp (currentUserKeyEpoch_spec hcurrent).1
  have hfree := has_nextEpoch hcurrent
  refine ⟨current, gen, publicKey, bytes, encrypted, { before.session with
    userKeyPair := some ⟨publicKey, encrypted⟩
    decryptedUserKeyBytes := some bytes
    decryptedUserKeyCache := none }, hcurrent, hgen, hgenerated, rfl, rfl, ?_⟩
  unfold rotateUserKey
  simp only [hresolved, hcurrent, hgen, hfree, hgenerated, hencrypted, if_true]

/-- **Rotation is all or nothing** exactly when no call throws once the pair is replaced, and the
pair that an earlier failure leaves in the session was published. -/
theorem allOrNothing_iff (crypto : UserKeyCrypto) (calls : RotationCalls) (before : Rotating)
    (hfresh : calls.FreshKey before.userKeys) : AllOrNothing crypto calls before ↔
      (calls.ReplacesPair before.userKeys → calls.Publishes before.userKeys)
        ∧ (¬calls.ReplacesPair before.userKeys → before.PairPublished) := by
  by_cases hreplaces : calls.ReplacesPair before.userKeys
  · obtain ⟨current, gen, publicKey, bytes, encrypted, session, hcurrent, hgen, hgenerated, hpair,
      -, hrun⟩ := rotateUserKey_of_replacesPair hreplaces
    rw [← isSome_rotatedUserKeys_iff hcurrent hgen publicKey]
    cases hrotated : calls.rotatedUserKeys before.userKeys current gen publicKey with
    | none =>
      rw [hrotated] at hrun
      refine ⟨fun hall => ?_, fun h => absurd (h.1 hreplaces) nofun⟩
      have hpublished := hall.published
      rw [hrun] at hpublished
      obtain ⟨epoch, old, hold, heq⟩ := hpublished _ hpair
      exact absurd heq (hfresh publicKey bytes hgenerated epoch old hold)
    | some userKeys' =>
      rw [hrotated] at hrun
      have hdone : Rotated calls before ⟨session, userKeys'⟩ :=
        rotated_of_eq hcurrent hgen hpair hrotated
      refine ⟨fun _ => ⟨fun _ => rfl, fun hnot => absurd hreplaces hnot⟩, fun _ => ⟨?_, ?_, ?_⟩⟩
      · rw [hrun]
        intro pair hmem
        obtain ⟨epoch, newGen, -, -, hnew, hpublicKey, -⟩ := hdone.wraps current gen hcurrent hgen
        exact ⟨epoch, newGen, hnew, hpublicKey pair hmem⟩
      · rw [hrun]
        exact nofun
      · rw [hrun]
        exact fun _ => hdone
  · have hrun := rotateUserKey_of_not_replacesPair hreplaces
    refine ⟨fun hall => ⟨fun h => absurd h hreplaces, fun _ => ?_⟩, fun h => ⟨?_, ?_, ?_⟩⟩
    · have hpublished := hall.published
      rw [hrun] at hpublished
      exact hpublished
    · rw [hrun]
      exact h.2 hreplaces
    · rw [hrun]
      exact fun _ => ⟨id, fun _ => id⟩
    · rw [hrun]
      exact nofun

end Rotated

/-! ## A phone and a laptop -/

/-- A cryptography in which everything opens. -/
def openCrypto : UserKeyCrypto where
  opensSealed _ _ := true
  decryptPrivateKey _ _ := some [1]
  unwrapPrivateKeyFromDevice _ _ := some [1]

/-- The phone has the key, and the laptop a wrap of it. -/
def phoneAndLaptop : Rotating where
  session :=
    { userKeyPair := some ⟨"key-1", "sealed-1"⟩
      currentUserPassword := "password"
      deviceFingerprint := "phone"
      deviceKey := none }
  userKeys := LinkedMap.set ∅ "1"
    { publicKey := "key-1"
      fingerprint := "print-1"
      createdAt := 1
      deviceWraps := LinkedMap.set ∅ "laptop"
        { wrappedKey := "wrap-1", approvedAt := 1, approvedBySigningPublicKey := "signer" } }

/-- A rotation in which the laptop's wrap is made, or not. -/
def rotateForLaptop (wrappedKey : Option WrappedKey) : RotationCalls where
  resolved := true
  generated := some ("key-2", [2])
  encrypted := some "sealed-2"
  fingerprint := some "print-2"
  userSigningPublicKey := some "signer"
  activeDevices := some [⟨none, some "laptop", wrappedKey⟩]
  written := true
  now := 2

theorem fresh_phoneAndLaptop (wrappedKey : Option WrappedKey) :
    (rotateForLaptop wrappedKey).FreshKey phoneAndLaptop.userKeys := by
  intro publicKey bytes hgenerated epoch gen hgen
  cases hgenerated
  rw [phoneAndLaptop, LinkedMap.get?_set] at hgen
  split_ifs at hgen
  · cases hgen
    decide
  · cases hgen

/-- The laptop's wrap is made. -/
theorem allOrNothing_phoneAndLaptop :
    AllOrNothing openCrypto (rotateForLaptop (some ⟨"wrap-2", by decide⟩)) phoneAndLaptop := by
  refine (allOrNothing_iff _ _ _ (fresh_phoneAndLaptop _)).mpr
    ⟨fun _ => ⟨rfl, rfl, ⟨_, rfl, ?_⟩, rfl⟩, fun hnot => absurd ⟨rfl, rfl, rfl, rfl⟩ hnot⟩
  intro device hdevice
  rw [mem_singleton.mp hdevice]
  exact ⟨"laptop", rfl, fun _ => rfl⟩

/-- **The laptop's wrap cannot be made**: the session keeps a pair that nobody published, and the
phone cannot open the newest generation any more. -/
theorem not_allOrNothing_phoneAndLaptop :
    ¬AllOrNothing openCrypto (rotateForLaptop none) phoneAndLaptop
      ∧ CanOpenNewest openCrypto phoneAndLaptop.session phoneAndLaptop.userKeys
      ∧ ¬CanOpenNewest openCrypto (rotateUserKey (rotateForLaptop none) phoneAndLaptop).2.session
        (rotateUserKey (rotateForLaptop none) phoneAndLaptop).2.userKeys := by
  have hopens : CanOpenNewest openCrypto phoneAndLaptop.session phoneAndLaptop.userKeys :=
    ⟨"1", by decide +kernel, by decide +kernel⟩
  have hshut : ¬CanOpenNewest openCrypto
      (rotateUserKey (rotateForLaptop none) phoneAndLaptop).2.session
      (rotateUserKey (rotateForLaptop none) phoneAndLaptop).2.userKeys := by
    rintro ⟨epoch, hepoch, hsome⟩
    obtain rfl : ("1" : JSString) = epoch := some.inj (Eq.trans (by decide +kernel) hepoch)
    revert hsome
    decide +kernel
  exact ⟨fun hall => hshut ((hall.opens (by decide +kernel)).1 hopens), hopens, hshut⟩

end MindooDB
