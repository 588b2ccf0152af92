import MindooDB.Lib.JSString

/-!
# Server/Types — what clients and servers exchange

`core/appendonlystores/network/types.ts`: errors, challenges and the payload of a token.
-/

namespace MindooDB

inductive NetworkErrorType where
  | invalidToken
  | userRevoked
  | invalidSignature
  | challengeExpired
  | networkError
  | payloadTooLarge
  | rateLimited
  | serverError
  | userNotFound
  | accessDenied
  | clockSkew
  deriving DecidableEq

structure NetworkError where
  type : NetworkErrorType
  message : JSString
  deriving DecidableEq

/-- What a call throws. -/
inductive Thrown where
  | network (error : NetworkError)
  /-- Any other exception. -/
  | error
  deriving DecidableEq

/-- `dbId` is never set. -/
structure NetworkAuthTokenPayload where
  sub : JSString
  iat : ℤ
  exp : ℤ
  tenantId : JSString
  deviceSigningKey : Option JSString := none
  wipe : Bool := false
  deriving DecidableEq

structure AuthChallenge where
  challenge : JSString
  username : Option JSString := none
  signingPublicKey : Option JSString := none
  createdAt : ℤ
  expiresAt : ℤ
  used : Bool := false
  deriving DecidableEq

end MindooDB
