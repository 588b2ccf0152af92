import MindooDB.Sealed.NameText
import MindooDB.Uri.MindooURI

/-!
# Uri/JoinRequest — join requests as links

`core/uri/joinRequestUri.ts`: where every key of a request is written as its canonical PEM, a link
carries their base64 bodies; else it carries the request as it is.  The signing and the encryption
key come back unchanged either way.  A user key is read like a free text, though: what is not
canonical loses the white space at its ends.  So a request survives just where its user key has none
there (`survives_iff`).
-/

namespace MindooDB

open JSString JsonTree List Option

structure JoinRequest where
  /-- 1 or 2. -/
  v : ℤ
  username : Option JSString := none
  signingPublicKey : JSString
  encryptionPublicKey : JSString
  label : Option JSString := none
  userPublicKey : Option JSString := none

namespace JoinRequestUri

def COMPACT_VERSION : ℤ := 3

def PEM_HEADER : JSString := "-----BEGIN PUBLIC KEY-----"

def PEM_FOOTER : JSString := "-----END PUBLIC KEY-----"

def PEM_LINE_LENGTH : ℕ := 64

def MAX_KEY_BASE64_CHARS : ℕ := 8192

def MAX_USERNAME_CHARS : ℕ := 512

def MAX_LABEL_CHARS : ℕ := 256

def isBase64Unit (unit : Fin 65536) : Bool := (Base64.digit? unit.val).isSome

/-- `BASE64_PATTERN.test(text)`. -/
def testBase64 (text : JSString) : Bool :=
  !(text.units.takeWhile isBase64Unit).isEmpty
    && text.units.dropWhile isBase64Unit ∈ ([[], [0x3D], [0x3D, 0x3D]] : List (List (Fin 65536)))

/-- `text.replace(part, "")`. -/
def remove (text part : JSString) : JSString :=
  match text.indexOf part with
  | none => text
  | some i => text.take i ++ text.drop (i + part.length)

/-! ## Keys and texts -/

/-- The canonical PEM of a base64 text. -/
def toPem (base64 : JSString) : JSString :=
  PEM_HEADER ++ (("\n" : JSString) ++ join "\n" ((base64.units.toChunks PEM_LINE_LENGTH).map mk)
    ++ ("\n" : JSString)) ++ PEM_FOOTER

def toBareBase64 (pem : JSString) : JSString :=
  ⟨(remove (remove pem PEM_HEADER) PEM_FOOTER).units.filter fun unit => !isSpace unit⟩

/-- The bare key, if it wraps to the same text. -/
def toCompactKey (pem : JSString) : Option JSString :=
  let bare := toBareBase64 pem
  if bare.isEmpty || bare.length > MAX_KEY_BASE64_CHARS || !testBase64 bare then none
  else if toPem bare = pem then some bare
  else none

def missingField (field : JSString) : JSString :=
  ("Invalid join request: missing \"" : JSString) ++ field ++ ("\"" : JSString)

def readCompactKey (value : Option JsonTree) (field : JSString) : Except JSString JSString :=
  match value with
  | some (.string value) =>
    if value.isEmpty then .error (missingField field)
    else if value.length > MAX_KEY_BASE64_CHARS || !testBase64 value then
      .error (("Invalid join request: \"" : JSString) ++ field
        ++ ("\" is not a base64 public key body" : JSString))
    else .ok (toPem value)
  | _ => .error (missingField field)

def readVerboseKey (value : Option JsonTree) (field : JSString) : Except JSString JSString :=
  match value with
  | some (.string value) =>
    if value.trim.isEmpty then .error (missingField field) else .ok value
  | _ => .error (missingField field)

def readOptionalText (value : Option JsonTree) (max : ℕ) : Option JSString :=
  match value with
  | some (.string value) => if value.trim.isEmpty then none else some (value.trim.take max)
  | _ => none

/-! ## Requests -/

/-- What a compact link says of a user key: `none` if it cannot. -/
def compactUserKey (userPublicKey : Option JSString) : Option (Option JSString) :=
  match userPublicKey with
  | none => some none
  | some key => if key.isEmpty then some none else (toCompactKey key).map some

/-- The members of a request. -/
def verbosePayload (request : JoinRequest) : List (JSString × JsonTree) :=
  JsonFormat.members
    [("v", some (.integer request.v)), ("username", request.username.map .string),
      ("signingPublicKey", some (.string request.signingPublicKey)),
      ("encryptionPublicKey", some (.string request.encryptionPublicKey)),
      ("label", request.label.map .string), ("userPublicKey", request.userPublicKey.map .string)]

def compactPayload (request : JoinRequest) (signing encryption : JSString)
    (userKey : Option JSString) : List (JSString × JsonTree) :=
  JsonFormat.members
    [("v", some (.integer COMPACT_VERSION)), ("s", some (.string signing)),
      ("e", some (.string encryption)),
      ("u", (readOptionalText (request.username.map .string) MAX_USERNAME_CHARS).map .string),
      ("l", (readOptionalText (request.label.map .string) MAX_LABEL_CHARS).map .string),
      ("k", userKey.map .string)]

/-- Compact where the keys allow it. -/
def encodeJoinRequestUri (request : JoinRequest) : Except JSString JSString :=
  match toCompactKey request.signingPublicKey, toCompactKey request.encryptionPublicKey,
      compactUserKey request.userPublicKey with
  | some signing, some encryption, some userKey =>
    encodeMindooURI "join-request" (compactPayload request signing encryption userKey)
  | _, _, _ => encodeMindooURI "join-request" (verbosePayload request)

/-- The user key of a compact link, if it has one. -/
def readCompactUserKey (payload : List (JSString × JsonTree)) :
    Except JSString (Option JSString) :=
  match field payload "k" with
  | some (.string key) =>
    if key.isEmpty then .ok none else (readCompactKey (some (.string key)) "k").map some
  | _ => .ok none

/-- A request, from either form of payload. -/
def normalizeJoinRequestPayload (payload : List (JSString × JsonTree)) (version : ℤ) :
    Except JSString JoinRequest := do
  if version = COMPACT_VERSION then
    let username := readOptionalText (field payload "u") MAX_USERNAME_CHARS
    let label := readOptionalText (field payload "l") MAX_LABEL_CHARS
    let signingPublicKey ← readCompactKey (field payload "s") "s"
    let encryptionPublicKey ← readCompactKey (field payload "e") "e"
    let userPublicKey ← readCompactUserKey payload
    .ok { v := if username.isSome then 1 else 2
          username, signingPublicKey, encryptionPublicKey, label, userPublicKey }
  else if version = 1 ∨ version = 2 then
    let username := readOptionalText (field payload "username") MAX_USERNAME_CHARS
    let label := readOptionalText (field payload "label") MAX_LABEL_CHARS
    let signingPublicKey ← readVerboseKey (field payload "signingPublicKey")
      "signingPublicKey"
    let encryptionPublicKey ← readVerboseKey (field payload "encryptionPublicKey")
      "encryptionPublicKey"
    let userPublicKey := readOptionalText (field payload "userPublicKey")
      (MAX_KEY_BASE64_CHARS * 2)
    .ok { v := version
          username, signingPublicKey, encryptionPublicKey, label, userPublicKey }
  else .error (("Unsupported join request version " : JSString) ++ JsonText.integer version
    ++ (". Update this client to accept it." : JSString))

def decodeJoinRequestUri (host : Base64Host) (uri : JSString) : Except JSString JoinRequest := do
  let decoded ← decodeMindooURI host uri
  if decoded.type ≠ "join-request" then
    .error (("Invalid URI type: expected \"join-request\", got \"" : JSString) ++ decoded.type
      ++ ("\"" : JSString))
  else normalizeJoinRequestPayload decoded.payload decoded.version

/-! ## Reading back -/

theorem toCompactKey_spec {pem bare : JSString} (h : toCompactKey pem = some bare) :
    (∀ field, readCompactKey (some (.string bare)) field = .ok pem) ∧ bare.isEmpty = false
      ∧ toPem bare = pem := by
  unfold toCompactKey at h
  dsimp only at h
  split_ifs at h with hbad hpem
  obtain rfl := some.inj h
  rw [Bool.not_eq_true, Bool.or_eq_false_iff, Bool.or_eq_false_iff] at hbad
  obtain ⟨⟨hempty, hlong⟩, htest⟩ := hbad
  refine ⟨fun field => ?_, hempty, hpem⟩
  rw [readCompactKey, hempty, if_neg Bool.false_ne_true, hlong, htest, hpem]
  rfl

example : toCompactKey "-----BEGIN PUBLIC KEY-----\nMCowBQYDK2Vw\n-----END PUBLIC KEY-----"
    = some ("MCowBQYDK2Vw" : JSString) := by decide +kernel

/-- A canonical PEM begins and ends with a dash. -/
theorem trim_toPem (base64 : JSString) : (toPem base64).trim = toPem base64 :=
  trim_append (by decide +kernel) (by decide) (by decide +kernel) (by decide) _

theorem readOptionalText_eq_some_iff {text text' : JSString} {max : ℕ} (h : text.length ≤ max) :
    readOptionalText (some (.string text)) max = some text'
      ↔ text.trim.isEmpty = false ∧ text.trim = text' := by
  have htake : text.trim.take max = text.trim :=
    units_injective (take_of_length_le
      ((units_trim_sublist text).length_le.trans h))
  rw [readOptionalText, htake]
  cases htrim : text.trim.isEmpty with
  | true | false => simp

/-- What a link is to keep of a free text: a blank one is none. -/
def trimmedText (text : Option JSString) : Option JSString :=
  (text.map trim).filter fun text => !text.isEmpty

theorem readOptionalText_eq {text : Option JSString} {max : ℕ}
    (h : ∀ t, text = some t → t.trim.length ≤ max) :
    readOptionalText (text.map .string) max = trimmedText text := by
  cases text with
  | none => rfl
  | some t =>
    have htake : t.trim.take max = t.trim :=
      units_injective (take_of_length_le (h t rfl))
    rw [map_some, readOptionalText, htake, trimmedText, map_some, filter_some]
    cases t.trim.isEmpty with
    | true | false => rfl

/-- A text that was read before. -/
theorem readOptionalText_twice {text : Option JSString} {max : ℕ}
    (h : ∀ t, text = some t → t.trim.length ≤ max) :
    readOptionalText ((readOptionalText (text.map .string) max).map .string) max
      = trimmedText text := by
  have htrim : ∀ t, trimmedText text = some t → t.trim = t ∧ t.length ≤ max := by
    intro t ht
    obtain ⟨hmap, -⟩ := filter_eq_some_iff.mp ht
    obtain ⟨t', htext, rfl⟩ := map_eq_some_iff.mp hmap
    exact ⟨trim_trim t', h t' htext⟩
  rw [readOptionalText_eq h, readOptionalText_eq fun t ht => (htrim t ht).1.symm ▸ (htrim t ht).2]
  cases htext : trimmedText text with
  | none => rfl
  | some t =>
    have hnonempty := (filter_eq_some_iff.mp htext).2
    rw [trimmedText, map_some, (htrim t htext).1, filter_some, if_pos hnonempty]

variable {host : Base64Host} {request : JoinRequest}

theorem decodeJoinRequestUri_encodeMindooURI {payload : List (JSString × JsonTree)} {version : ℤ}
    (hversion : payloadVersion payload = some version) :
    (encodeMindooURI "join-request" payload).bind (decodeJoinRequestUri host)
      = normalizeJoinRequestPayload payload version := by
  have hvalid : ("join-request" : JSString) ∈ VALID_TYPES := by decide
  have hdecode := decodeMindooURI_encode host hvalid hversion
  revert hdecode
  cases encodeMindooURI "join-request" payload with
  | error e => exact fun hdecode => nomatch hdecode
  | ok uri =>
    intro hdecode
    change decodeJoinRequestUri host uri = _
    rw [decodeJoinRequestUri, show decodeMindooURI host uri = _ from hdecode]
    rfl

/-- The user key of a compact link. -/
theorem readCompactUserKey_eq {payload : List (JSString × JsonTree)}
    {userPublicKey userKey : Option JSString} (h : compactUserKey userPublicKey = some userKey)
    (hk : field payload "k" = userKey.map .string) :
    readCompactUserKey payload = .ok (userPublicKey.filter fun key => !key.isEmpty) := by
  rw [readCompactUserKey, hk]
  cases userPublicKey with
  | none =>
    obtain rfl := some.inj h
    rfl
  | some key =>
    rw [compactUserKey] at h
    rw [filter_some]
    cases hempty : key.isEmpty with
    | true =>
      rw [hempty] at h
      obtain rfl := some.inj h
      rfl
    | false =>
      rw [hempty] at h
      obtain ⟨bare, hbare, rfl⟩ := map_eq_some_iff.mp h
      obtain ⟨hread, hnonempty, -⟩ := toCompactKey_spec hbare
      dsimp only [map_some]
      rw [hnonempty, if_neg Bool.false_ne_true, hread]
      rfl

/-- **A compact link.** -/
theorem decode_encode_of_compact {signing encryption : JSString} {userKey : Option JSString}
    (hsigning : toCompactKey request.signingPublicKey = some signing)
    (hencryption : toCompactKey request.encryptionPublicKey = some encryption)
    (huserKey : compactUserKey request.userPublicKey = some userKey) :
    ∃ v, (encodeJoinRequestUri request).bind (decodeJoinRequestUri host) = .ok
      { v
        username := readOptionalText ((readOptionalText (request.username.map .string)
          MAX_USERNAME_CHARS).map .string) MAX_USERNAME_CHARS
        signingPublicKey := request.signingPublicKey
        encryptionPublicKey := request.encryptionPublicKey
        label := readOptionalText ((readOptionalText (request.label.map .string)
          MAX_LABEL_CHARS).map .string) MAX_LABEL_CHARS
        userPublicKey := request.userPublicKey.filter fun key => !key.isEmpty } := by
  have hfields : ∀ f ∈ ([("v", some (.integer COMPACT_VERSION)), ("s", some (.string signing)),
      ("e", some (.string encryption)),
      ("u", (readOptionalText (request.username.map .string) MAX_USERNAME_CHARS).map .string),
      ("l", (readOptionalText (request.label.map .string) MAX_LABEL_CHARS).map .string),
      ("k", userKey.map .string)] : List (JSString × Option JsonTree)),
      field (compactPayload request signing encryption userKey) f.1 = f.2 :=
    fun f hf => JsonFormat.field_members (by
      simp only [map_cons, map_nil]
      decide +kernel) hf
  simp only [forall_mem_cons] at hfields
  obtain ⟨hv, hs, he, hu, hl, hk, -⟩ := hfields
  have hversion : payloadVersion (compactPayload request signing encryption userKey)
      = some COMPACT_VERSION := by
    rw [payloadVersion, hv]
    rfl
  rw [encodeJoinRequestUri, hsigning, hencryption, huserKey]
  dsimp only
  rw [decodeJoinRequestUri_encodeMindooURI hversion, normalizeJoinRequestPayload, if_pos rfl, hu,
    hl, hs, he, (toCompactKey_spec hsigning).1, (toCompactKey_spec hencryption).1,
    readCompactUserKey_eq huserKey hk]
  exact ⟨_, rfl⟩

/-- **A verbose link.** -/
theorem decode_encode_of_verbose (hv : request.v = 1 ∨ request.v = 2)
    (hsigning : request.signingPublicKey.trim.isEmpty = false)
    (hencryption : request.encryptionPublicKey.trim.isEmpty = false)
    (hverbose : toCompactKey request.signingPublicKey = none
      ∨ toCompactKey request.encryptionPublicKey = none
      ∨ compactUserKey request.userPublicKey = none) :
    (encodeJoinRequestUri request).bind (decodeJoinRequestUri host) = .ok
      { request with
        username := readOptionalText (request.username.map .string) MAX_USERNAME_CHARS
        label := readOptionalText (request.label.map .string) MAX_LABEL_CHARS
        userPublicKey := readOptionalText (request.userPublicKey.map .string)
          (MAX_KEY_BASE64_CHARS * 2) } := by
  have hencode : encodeJoinRequestUri request
      = encodeMindooURI "join-request" (verbosePayload request) := by
    unfold encodeJoinRequestUri
    split
    · rename_i hsigning' hencryption' huserKey'
      rw [hsigning', hencryption', huserKey'] at hverbose
      simp at hverbose
    · rfl
  have hfields : ∀ f ∈ ([("v", some (.integer request.v)),
      ("username", request.username.map .string),
      ("signingPublicKey", some (.string request.signingPublicKey)),
      ("encryptionPublicKey", some (.string request.encryptionPublicKey)),
      ("label", request.label.map .string), ("userPublicKey", request.userPublicKey.map .string)]
        : List (JSString × Option JsonTree)),
      field (verbosePayload request) f.1 = f.2 :=
    fun f hf => JsonFormat.field_members (by
      simp only [map_cons, map_nil]
      decide +kernel) hf
  simp only [forall_mem_cons] at hfields
  obtain ⟨hversion, husername, hs, he, hlabel, huserKey, -⟩ := hfields
  have hpayload : payloadVersion (verbosePayload request) = some request.v := by
    rw [payloadVersion, hversion]
    dsimp only
    rw [if_neg (by omega)]
  have hcompact : request.v ≠ COMPACT_VERSION := by
    rw [COMPACT_VERSION]
    omega
  rw [hencode, decodeJoinRequestUri_encodeMindooURI hpayload, normalizeJoinRequestPayload,
    if_neg hcompact, if_pos hv, husername, hs, he, hlabel, huserKey, readVerboseKey, readVerboseKey]
  dsimp only
  rw [hsigning, hencryption]
  rfl

/-! ## What survives -/

/-- A free text of at most some length is kept trimmed. -/
def Kept (max : ℕ) (original decoded : Option JSString) : Prop :=
  (∀ text, original = some text → text.trim.length ≤ max) → decoded = trimmedText original

/-- **A request survives its link** on a host: keys as they are, free texts trimmed, within the
limits. -/
def Survives (host : Base64Host) (request : JoinRequest) : Prop :=
  ∃ decoded, (encodeJoinRequestUri request).bind (decodeJoinRequestUri host) = .ok decoded
    ∧ decoded.signingPublicKey = request.signingPublicKey
    ∧ decoded.encryptionPublicKey = request.encryptionPublicKey
    ∧ ((∀ key, request.userPublicKey = some key → key.length ≤ MAX_KEY_BASE64_CHARS * 2) →
        decoded.userPublicKey = request.userPublicKey)
    ∧ Kept MAX_USERNAME_CHARS request.username decoded.username
    ∧ Kept MAX_LABEL_CHARS request.label decoded.label

/-- A user key within the limit is not empty and has no white space at its ends. -/
def HasTrimmedUserKey (request : JoinRequest) : Prop :=
  ∀ key, request.userPublicKey = some key → key.length ≤ MAX_KEY_BASE64_CHARS * 2 →
    key.isEmpty = false ∧ key.trim = key

/-- A user key that a compact link carries. -/
theorem filter_eq_iff {userPublicKey userKey : Option JSString}
    (h : compactUserKey userPublicKey = some userKey) :
    (userPublicKey.filter fun key => !key.isEmpty) = userPublicKey
      ↔ ∀ key, userPublicKey = some key → key.isEmpty = false ∧ key.trim = key := by
  cases userPublicKey with
  | none => exact ⟨fun _ _ hkey => (nomatch hkey), fun _ => rfl⟩
  | some key =>
    rw [compactUserKey] at h
    rw [filter_some]
    cases hempty : key.isEmpty with
    | true =>
      refine ⟨fun hnone => (nomatch hnone), fun htrimmed => ?_⟩
      exact nomatch (htrimmed key rfl).1.symm.trans hempty
    | false =>
      rw [hempty] at h
      obtain ⟨bare, hbare, -⟩ := map_eq_some_iff.mp h
      obtain ⟨-, -, rfl⟩ := toCompactKey_spec hbare
      refine ⟨fun _ key hkey => ?_, fun _ => rfl⟩
      obtain rfl := some.inj hkey
      exact ⟨hempty, trim_toPem bare⟩

/-- A user key that is read like a free text. -/
theorem readOptionalText_eq_iff {userPublicKey : Option JSString} {max : ℕ}
    (hlimit : ∀ key, userPublicKey = some key → key.length ≤ max) :
    readOptionalText (userPublicKey.map .string) max = userPublicKey
      ↔ ∀ key, userPublicKey = some key → key.isEmpty = false ∧ key.trim = key := by
  cases userPublicKey with
  | none => exact ⟨fun _ _ hkey => (nomatch hkey), fun _ => rfl⟩
  | some key =>
    rw [map_some, readOptionalText_eq_some_iff (hlimit key rfl)]
    constructor
    · rintro ⟨hempty, htrim⟩ key' hkey'
      obtain rfl := some.inj hkey'
      exact ⟨htrim ▸ hempty, htrim⟩
    · intro h
      obtain ⟨hempty, htrim⟩ := h key rfl
      exact ⟨htrim.symm ▸ hempty, htrim⟩

/-- Where all else survives, it is a matter of the user key. -/
theorem survives_iff_of_decoded {decoded : JoinRequest}
    (h : (encodeJoinRequestUri request).bind (decodeJoinRequestUri host) = .ok decoded)
    (hsigning : decoded.signingPublicKey = request.signingPublicKey)
    (hencryption : decoded.encryptionPublicKey = request.encryptionPublicKey)
    (husername : Kept MAX_USERNAME_CHARS request.username decoded.username)
    (hlabel : Kept MAX_LABEL_CHARS request.label decoded.label)
    (hkey : (∀ key, request.userPublicKey = some key → key.length ≤ MAX_KEY_BASE64_CHARS * 2) →
      (decoded.userPublicKey = request.userPublicKey
        ↔ ∀ key, request.userPublicKey = some key → key.isEmpty = false ∧ key.trim = key)) :
    Survives host request ↔ HasTrimmedUserKey request := by
  constructor
  · rintro ⟨decoded', hdecoded', -, -, hkept, -, -⟩ key huser hlength
    obtain rfl := Except.ok.inj (h.symm.trans hdecoded')
    have hlimit : ∀ key, request.userPublicKey = some key →
        key.length ≤ MAX_KEY_BASE64_CHARS * 2 := by
      intro key' huser'
      obtain rfl := some.inj (huser.symm.trans huser')
      exact hlength
    exact (hkey hlimit).mp (hkept hlimit) key huser
  · intro htrimmed
    exact ⟨decoded, h, hsigning, hencryption, fun hlimit => (hkey hlimit).mpr fun key huser =>
      htrimmed key huser (hlimit key huser), husername, hlabel⟩

/-- **A request survives its link just where its user key is trimmed.** -/
theorem survives_iff (host : Base64Host) (request : JoinRequest) (hv : request.v = 1 ∨ request.v = 2)
    (hsigning : request.signingPublicKey.trim.isEmpty = false)
    (hencryption : request.encryptionPublicKey.trim.isEmpty = false) :
    Survives host request ↔ HasTrimmedUserKey request := by
  by_cases hverbose : toCompactKey request.signingPublicKey = none
      ∨ toCompactKey request.encryptionPublicKey = none
      ∨ compactUserKey request.userPublicKey = none
  · exact survives_iff_of_decoded (decode_encode_of_verbose hv hsigning hencryption hverbose)
      rfl rfl readOptionalText_eq readOptionalText_eq readOptionalText_eq_iff
  · push Not at hverbose
    obtain ⟨hs, he, hk⟩ := hverbose
    obtain ⟨signing, hs⟩ := ne_none_iff_exists'.mp hs
    obtain ⟨encryption, he⟩ := ne_none_iff_exists'.mp he
    obtain ⟨userKey, hk⟩ := ne_none_iff_exists'.mp hk
    obtain ⟨v, hdecoded⟩ := decode_encode_of_compact hs he hk
    exact survives_iff_of_decoded hdecoded rfl rfl readOptionalText_twice readOptionalText_twice
      fun _ => filter_eq_iff hk

/-- A request whose user key ends with a line end, as files of keys do. -/
def newlineRequest : JoinRequest where
  v := 2
  signingPublicKey := "-----BEGIN PUBLIC KEY-----\nMCowBQYDK2Vw\n-----END PUBLIC KEY-----"
  encryptionPublicKey := "-----BEGIN PUBLIC KEY-----\nMIIBojANBgkq\n-----END PUBLIC KEY-----"
  userPublicKey :=
    some ("-----BEGIN PUBLIC KEY-----\nMIIBojANBgkr\n-----END PUBLIC KEY-----\n" : JSString)

/-- **Its line end is lost**, and with it the key that a directory compares. -/
theorem not_survives_newlineRequest : ¬ ∃ host, Survives host newlineRequest := by
  rintro ⟨host, decoded, hdecoded, -, -, hkey, -, -⟩
  have hverbose : compactUserKey newlineRequest.userPublicKey = none := by decide +kernel
  rw [decode_encode_of_verbose (.inr rfl) (by decide +kernel) (by decide +kernel)
    (.inr (.inr hverbose))] at hdecoded
  obtain rfl := Except.ok.inj hdecoded
  have hkept := hkey fun key huser => by
    obtain rfl := some.inj huser
    decide +kernel
  exact absurd hkept (by decide +kernel)

theorem survives_iff_newlineRequest :
    Survives .buffer newlineRequest ↔ HasTrimmedUserKey newlineRequest :=
  survives_iff .buffer newlineRequest (.inr rfl) (by decide +kernel) (by decide +kernel)

end JoinRequestUri

end MindooDB
