import MindooDB.Lib.Base64
import MindooDB.Lib.JSStringParts
import MindooDB.Lib.JsonFormat
import MindooDB.Lib.Utf8

/-!
# Uri/MindooURI — payloads as links

`encodeMindooURI` and `decodeMindooURI` of `core/uri/MindooURI.ts`: a payload is JSON with a
version, in base64url behind its type.  A link decodes to the payload that it was encoded from
(`decodeMindooURI_encode`), in Node as in a browser.  Both write the same base64.  They read it
differently: `Buffer` passes over foreign characters and keeps a byte order mark, `atob` throws.
-/

namespace MindooDB

open Base64 JSString JsonTree TextEncoding

def MDB_SCHEME : JSString := "mdb://"

def VALID_TYPES : List JSString :=
  ["join-request", "join-response", "key-distribution", "app-distribution", "sync-setup-policy",
    "doc-history-purge"]

structure DecodedMindooURI where
  type : JSString
  version : ℤ
  payload : List (JSString × JsonTree)

/-! ## Base64url -/

/-- `-` and `_` for `+` and `/`. -/
def urlUnit (unit : Fin 65536) : Fin 65536 :=
  if unit = 0x2B then 0x2D else if unit = 0x2F then 0x5F else unit

/-- `+` and `/` for `-` and `_`. -/
def base64Unit (unit : Fin 65536) : Fin 65536 :=
  if unit = 0x2D then 0x2B else if unit = 0x5F then 0x2F else unit

def toBase64Url (str : JSString) : JSString :=
  ⟨((btoa (encode str)).units.map urlUnit).rdropWhile (· = 0x3D)⟩

/-- What a link is read with: `Buffer` where there is one, else `atob` and `TextDecoder`. -/
inductive Base64Host
  | buffer
  | browser

def fromBase64Url (host : Base64Host) (base64url : JSString) : Option JSString :=
  let base64 := base64url.units.map base64Unit
  let paddingNeeded := (4 - base64.length % 4) % 4
  let padded : JSString := ⟨base64 ++ List.replicate paddingNeeded 0x3D⟩
  match host with
  | .buffer => some (Utf8.toString ((ofBuffer padded).map UInt8.toNat))
  | .browser => (atob padded).map fun bytes => Utf8.decode (bytes.map UInt8.toNat)

/-! ## Links -/

/-- A positive integer at `v`. -/
def payloadVersion (payload : List (JSString × JsonTree)) : Option ℤ :=
  match field payload "v" with
  | some (.integer v) => if v < 1 then none else some v
  | _ => none

def invalidType (type : JSString) : JSString :=
  ("Invalid MindooDB URI type: \"" : JSString) ++ type ++ ("\". Valid types: " : JSString)
    ++ join ", " VALID_TYPES

def missingVersion : JSString :=
  " must contain a \"v\" field with a positive integer version number"

/-- A payload, behind its type. -/
def encodeMindooURI (type : JSString) (payload : List (JSString × JsonTree)) :
    Except JSString JSString :=
  if type ∉ VALID_TYPES then .error (invalidType type)
  else
    match payloadVersion payload with
    | none => .error (("MindooDB URI payload" : JSString) ++ missingVersion)
    | some _ =>
      .ok (MDB_SCHEME ++ type ++ ("/" : JSString) ++ toBase64Url (object payload).stringify)

/-- The type and the payload of a URI. -/
def decodeMindooURI (host : Base64Host) (uri : JSString) : Except JSString DecodedMindooURI :=
  if !uri.startsWith MDB_SCHEME then .error "Invalid MindooDB URI: must start with \"mdb://\""
  else
    let remainder := uri.drop MDB_SCHEME.length
    match remainder.indexOf "/" with
    | none => .error "Invalid MindooDB URI: missing type/payload separator \"/\""
    | some slashIdx =>
      let type := remainder.take slashIdx
      let base64urlPayload := remainder.drop (slashIdx + 1)
      if type ∉ VALID_TYPES then .error (invalidType type)
      else if base64urlPayload.isEmpty then .error "Invalid MindooDB URI: empty payload"
      else
        match fromBase64Url host base64urlPayload with
        | none => .error "Invalid MindooDB URI: payload is not valid base64url"
        | some jsonStr =>
          match parse jsonStr with
          | none => .error "Invalid MindooDB URI: payload is not valid JSON"
          | some (.object payload) =>
            match payloadVersion payload with
            | none => .error (("Invalid MindooDB URI: payload" : JSString) ++ missingVersion)
            | some version => .ok { type, version, payload }
          | some _ => .error "Invalid MindooDB URI: payload must be a JSON object"

/-! ## Round trips -/

theorem base64Unit_urlUnit : ∀ n < 64, base64Unit (urlUnit (digitUnit n))
    = digitUnit n ∧ urlUnit (digitUnit n) ≠ 0x3D := by
  decide +kernel

theorem rdropWhile_append_replicate {α : Type} [DecidableEq α] {a : α} {l : List α} (h : a ∉ l)
    (k : ℕ) : (l ++ List.replicate k a).rdropWhile (· = a) = l := by
  rw [List.rdropWhile, List.reverse_append, List.reverse_replicate,
    List.dropWhile_append_of_pos fun b hb => decide_eq_true (List.eq_of_mem_replicate hb)]
  cases hrev : l.reverse with
  | nil => rw [List.reverse_eq_nil_iff.mp hrev]; rfl
  | cons b rest =>
    have hb : b ≠ a := by
      rintro rfl
      exact h (List.mem_reverse.mp (hrev ▸ List.mem_cons_self))
    rw [List.dropWhile_cons_of_neg (by rwa [decide_eq_true_eq]), ← hrev, List.reverse_reverse]

/-- Without its padding, base64 is its digits. -/
theorem units_toBase64Url (str : JSString) : (toBase64Url str).units
    = (digitsOf (encode str)).map fun n => urlUnit (digitUnit n) := by
  have hdigits := lt_of_mem_digitsOf (encode str)
  have hpadding : urlUnit 0x3D = 0x3D := by decide
  rw [toBase64Url, btoa, List.map_append, List.map_map, List.map_replicate, hpadding]
  refine rdropWhile_append_replicate (fun hmem => ?_) _
  obtain ⟨n, hn, heq⟩ := List.mem_map.mp hmem
  exact (base64Unit_urlUnit n (hdigits n hn)).2 heq

/-- **What is written in base64url is read back**, by either host. -/
theorem fromBase64Url_toBase64Url (host : Base64Host) {str : JSString} (hstr : IsWellFormed str)
    (hmark : str.units.head? ≠ some 0xFEFF) : fromBase64Url host (toBase64Url str) = some str := by
  have hdigits := lt_of_mem_digitsOf (encode str)
  have hunits : (toBase64Url str).units.map base64Unit = (digitsOf (encode str)).map digitUnit := by
    rw [units_toBase64Url, List.map_map]
    exact List.map_congr_left fun n hn => (base64Unit_urlUnit n (hdigits n hn)).1
  have hpadding : (4 - (digitsOf (encode str)).length % 4) % 4
      = (3 - (encode str).length % 3) % 3 := by
    have hlength := length_digitsOf (encode str)
    omega
  unfold fromBase64Url
  dsimp only
  rw [hunits, List.length_map, hpadding]
  cases host with
  | buffer =>
    change some (Utf8.toString ((ofBuffer (btoa (encode str))).map _)) = _
    rw [ofBuffer_btoa, Utf8.toString_encode hstr]
  | browser =>
    change (atob (btoa (encode str))).map _ = _
    rw [atob_btoa, Option.map_some, Utf8.decode_encode hstr hmark]

theorem isEmpty_toBase64Url {str : JSString} (h : encode str ≠ []) :
    (toBase64Url str).isEmpty = false := by
  rw [isEmpty, units_toBase64Url]
  rcases hbytes : encode str with _ | ⟨a, _ | ⟨b, _ | ⟨c, rest⟩⟩⟩
  · exact absurd hbytes h
  · rfl
  · rfl
  · rfl

/-- No type has a slash. -/
theorem indexOf_slash {type : JSString} (h : type ∈ VALID_TYPES) (rest : JSString) :
    (type ++ ("/" : JSString) ++ rest).indexOf "/" = some type.length := by
  simp only [VALID_TYPES, List.mem_cons, List.not_mem_nil, or_false] at h
  rcases h with rfl | rfl | rfl | rfl | rfl | rfl
  all_goals rfl

/-- **A link decodes to the payload it was encoded from.** -/
theorem decodeMindooURI_encode (host : Base64Host) {type : JSString} {payload : List (JSString × JsonTree)}
    {version : ℤ} (htype : type ∈ VALID_TYPES) (hversion : payloadVersion payload = some version) :
    (encodeMindooURI type payload).bind (decodeMindooURI host) = .ok { type, version, payload } := by
  have hjson := fromBase64Url_toBase64Url host (isWellFormed_stringify (.object payload))
    (fun h => absurd (Option.some.inj h) (by decide))
  have hempty : (toBase64Url (object payload).stringify).isEmpty = false :=
    isEmpty_toBase64Url fun h => by
      have hdecode := TextEncoding.decode_encode (isWellFormed_stringify (.object payload))
      rw [h] at hdecode
      have hnil := congrArg units (Option.some.inj hdecode)
      exact nomatch hnil
  rw [encodeMindooURI, if_neg (not_not_intro htype), hversion]
  generalize hpayload : toBase64Url (object payload).stringify = base64url at hjson hempty
  have hstart :
      (MDB_SCHEME ++ type ++ ("/" : JSString) ++ base64url).startsWith MDB_SCHEME = true := by
    rw [append_assoc, append_assoc]
    exact startsWith_append _ _
  have hremainder : (MDB_SCHEME ++ type ++ ("/" : JSString) ++ base64url).drop MDB_SCHEME.length
      = type ++ ("/" : JSString) ++ base64url := by
    rw [append_assoc, append_assoc, drop_append, append_assoc]
  have hrest : (type ++ ("/" : JSString) ++ base64url).drop (type.length + 1) = base64url := by
    have hlength : (type ++ ("/" : JSString)).length = type.length + 1 := List.length_append
    rw [← hlength, drop_append]
  have htake : (type ++ ("/" : JSString) ++ base64url).take type.length = type := by
    rw [append_assoc, take_append]
  change decodeMindooURI host _ = _
  rw [decodeMindooURI, hstart, hremainder]
  simp only [Bool.not_true, Bool.false_eq_true, if_false]
  rw [indexOf_slash htype]
  dsimp only
  rw [hrest, htake, if_neg (not_not_intro htype), hempty, if_neg Bool.false_ne_true, hjson]
  dsimp only
  rw [parse_stringify]
  dsimp only
  rw [hversion]

end MindooDB
