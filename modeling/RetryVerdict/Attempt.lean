import RetryVerdict.Field.Basic
import RetryVerdict.Verdict

/-!
# Attempt — what is known of a finished attempt

An `Attempt` is what a classifier sees: the response if one arrived, the error or the output that
was parsed from it, whether it could not be parsed, and the code with which the transport ended.
The constructors `ofTransport` … `ofError` give the usual attempts; any other combination of the
five parts is an attempt too.
-/

namespace RetryVerdict

open Bytes (utf8)

/-! ### The transport -/

/-- How a transfer ended, as a number. -/
structure TransportCode where
  number : Nat
deriving DecidableEq, Repr

namespace TransportCode

def ok : TransportCode := ⟨0⟩
def proxyNotResolved : TransportCode := ⟨5⟩
def hostNotResolved : TransportCode := ⟨6⟩
def notConnected : TransportCode := ⟨7⟩
def framing : TransportCode := ⟨16⟩
def partialBody : TransportCode := ⟨18⟩
def timedOut : TransportCode := ⟨28⟩
def handshake : TransportCode := ⟨35⟩
def nothingReceived : TransportCode := ⟨52⟩
def sending : TransportCode := ⟨55⟩
def receiving : TransportCode := ⟨56⟩
def streamFraming : TransportCode := ⟨92⟩

/-- A wording for the code, up to its first zero byte, with the number in brackets. -/
def text (c : TransportCode) (wording : Bytes) : Bytes :=
  wording.upToZero ++ utf8 " (" ++ Decimal.ofNat c.number ++ utf8 ")"

end TransportCode

/-! ### Responses and errors -/

/-- A response as it arrived. -/
structure Response where
  status : Int64 := 0
  fields : Fields := {}
  body : Bytes := []
deriving DecidableEq, Repr

/-- The response with these raw header lines. -/
def Response.ofLines (status : Int64) (lines : List Bytes) (body : Bytes) : Response :=
  ⟨status, .ofLines lines, body⟩

/-- An error that a service reported. -/
structure ServiceError where
  code : Bytes := []
  message : Bytes := []
  /-- Set if the contract of the service declares the error retryable. -/
  category : Option Category := none
deriving DecidableEq, Repr

/-! ### Attempts -/

/-- A finished attempt. -/
structure Attempt where
  response : Option Response := none
  error : Option ServiceError := none
  /-- An output was parsed from the response. -/
  hasOutput : Bool := false
  /-- The response could not be parsed. -/
  unparseable : Bool := false
  transport : TransportCode := .ok
deriving DecidableEq, Repr

namespace Attempt

/-- The transport failed. -/
def ofTransport (c : TransportCode) : Attempt := { transport := c }

/-- A response arrived. -/
def ofResponse (r : Response) : Attempt := { response := some r }

/-- A response arrived, and an output was parsed from it. -/
def ofOutput (r : Response) : Attempt := { response := some r, hasOutput := true }

/-- A response arrived that could not be parsed. -/
def ofUnparseable (r : Response) : Attempt := { response := some r, unparseable := true }

/-- A response arrived, and an error was parsed from it. -/
def ofError (r : Response) (e : ServiceError) : Attempt := { response := some r, error := some e }

/-- The transport did not end well. -/
def transportFailed (a : Attempt) : Bool := a.transport != .ok

/-- The status, if a response arrived. -/
def status? (a : Attempt) : Option Int64 := a.response.map (·.status)

/-- The error code, if an error was parsed. -/
def errorCode? (a : Attempt) : Option Bytes := a.error.map (·.code)

end Attempt

end RetryVerdict
