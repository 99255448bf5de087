import RetryVerdict.Classifier.Basic

/-!
# Classifier — the shipped classifiers

The library brings four classifiers, and each stands in a slot of its own.  Every slot is just
below the one before it, so `transient` is the highest and `status` the lowest.

* `transient`: the transport failed in a way that may pass, or a response could not be parsed.
* `modeled`: the contract of the service declares the error retryable.
* `service`: the error code is a known throttling or transient one; the only one of the four that
  passes on a stated delay.
* `status`: the status is in a set of retryable ones.

None of them looks at the verdict before it, and none forbids a retry.

A response may say how long to wait, in milliseconds or in whole seconds, each in a header field of
its own.  Only the first value of a field counts.  The milliseconds go first; where they are
missing, are no number or are too many for a `Delay`, the seconds are tried.  `Delay.ofSeconds?`
compares before it multiplies, so the product is exact.
-/

namespace RetryVerdict

open Bytes (utf8)

/-! ### Slots -/

/-- The place of a shipped classifier. -/
inductive Slot where
  | transient
  | modeled
  | service
  | status
deriving DecidableEq, Repr

namespace Slot

def rank : Slot → Rank
  | transient => .standard
  | modeled => Rank.standard.before
  | service => Rank.standard.before.before
  | status => Rank.standard.before.before.before

/-- The name of the classifier that stands there. -/
def name : Slot → Bytes
  | transient => utf8 "Transient Errors"
  | modeled => utf8 "Errors Modeled As Retryable"
  | service => utf8 "Service Error Codes"
  | status => utf8 "HTTP Status Codes"

end Slot

/-! ### The delay that a response states -/

namespace Delay

/-- The most milliseconds that a delay holds. -/
def maxMillis : UInt64 := 0x7fffffffffffffff

/-- So many milliseconds, if a delay holds them. -/
def ofMillis? (n : UInt64) : Option Delay :=
  if n ≤ maxMillis then some ⟨n.toInt64⟩ else none

/-- So many seconds, if a delay holds them. -/
def ofSeconds? (n : UInt64) : Option Delay :=
  if n ≤ maxMillis / 1000 then some ⟨(n * 1000).toInt64⟩ else none

end Delay

namespace Fields

/-- The field that states milliseconds. -/
def millisName : Bytes := utf8 "x-amz-retry-after"

/-- The field that states seconds. -/
def secondsName : Bytes := utf8 "retry-after"

/-- The delay in milliseconds. -/
def statedMillis (f : Fields) : Option Delay := do
  Delay.ofMillis? (← Decimal.readWord? (← f.first? millisName))

/-- The delay in seconds. -/
def statedSeconds (f : Fields) : Option Delay := do
  Delay.ofSeconds? (← Decimal.readWord? (← f.first? secondsName))

/-- The delay that the fields state. -/
def statedDelay (f : Fields) : Option Delay := f.statedMillis <|> f.statedSeconds

end Fields

/-! ### Sets of status codes -/

/-- A set of status codes. -/
structure StatusCodes where
  /-- The codes, in ascending order. -/
  codes : List Int64
deriving DecidableEq, Repr

namespace StatusCodes

/-- Puts a code at its place in an ascending list, unless it is there. -/
def place (c : Int64) : List Int64 → List Int64
  | [] => [c]
  | d :: ds => if c < d then c :: d :: ds else if c = d then d :: ds else d :: place c ds

/-- The set of the codes in a list. -/
def ofList (cs : List Int64) : StatusCodes := ⟨cs.foldr place []⟩

def contains (s : StatusCodes) (c : Int64) : Bool := s.codes.contains c

/-- The server errors that may pass. -/
def standard : StatusCodes := ⟨[500, 502, 503, 504]⟩

end StatusCodes

/-! ### What is known to pass -/

/-- The transport failures that may pass. -/
def TransportCode.passing : List TransportCode :=
  [proxyNotResolved, hostNotResolved, notConnected, timedOut, handshake, sending, receiving,
    nothingReceived, partialBody, framing, streamFraming]

/-- A transport failure that may pass. -/
def TransportCode.mayPass (c : TransportCode) : Bool := passing.contains c

namespace ServiceError

/-- The error codes of a service that is asked too much. -/
def throttlingCodes : List Bytes :=
  [utf8 "Throttling", utf8 "ThrottlingException", utf8 "ThrottledException",
    utf8 "RequestThrottledException", utf8 "TooManyRequestsException",
    utf8 "ProvisionedThroughputExceededException", utf8 "TransactionInProgressException",
    utf8 "RequestLimitExceeded", utf8 "BandwidthLimitExceeded", utf8 "LimitExceededException",
    utf8 "RequestThrottled", utf8 "SlowDown", utf8 "PriorRequestNotComplete",
    utf8 "EC2ThrottledException"]

/-- The error codes of a failure that may pass. -/
def transientCodes : List Bytes :=
  [utf8 "RequestTimeout", utf8 "RequestTimeoutException", utf8 "InternalError",
    utf8 "IDPCommunicationError"]

/-- A code that is known to ask for fewer requests. -/
def isThrottling (code : Bytes) : Bool := throttlingCodes.contains code

/-- A code that is known to pass. -/
def isPassing (code : Bytes) : Bool := transientCodes.contains code

/-- The category of a known code. -/
def codeCategory? (code : Bytes) : Option Category :=
  if isThrottling code then some .throttling
  else if isPassing code then some .transient
  else none

end ServiceError

/-! ### What each of them answers -/

namespace Attempt

/-- A retry if the failure, of the transport or of parsing, may pass. -/
def judgeTransport (a : Attempt) : Option Verdict :=
  if a.transportFailed then
    if a.transport.mayPass then some (.ofCategory .transient) else none
  else if a.unparseable then some (.ofCategory .transient)
  else none

/-- A retry if the error is declared retryable. -/
def judgeDeclared (a : Attempt) : Option Verdict := do
  let e ← a.error
  let c ← e.category
  return .ofCategory c

/-- A retry if the error code is a known one, after the delay that the response states. -/
def judgeCode (a : Attempt) : Option Verdict := do
  let e ← a.error
  let c ← ServiceError.codeCategory? e.code
  return .retry ⟨c, a.response.bind (·.fields.statedDelay)⟩

/-- A retry if the status is in the set. -/
def judgeStatus (codes : StatusCodes) (a : Attempt) : Option Verdict := do
  let r ← a.response
  if codes.contains r.status then some (.ofCategory .server) else none

end Attempt

/-! ### The classifiers -/

namespace Classifier

/-- The classifier of a slot that answers so, whatever the verdict before it. -/
def inSlot (s : Slot) (judge : Attempt → Option Verdict) : Classifier :=
  { name := s.name, rank := s.rank, origin := .shipped, answer := fun a _ => judge a }

def transient : Classifier := inSlot .transient Attempt.judgeTransport

def modeled : Classifier := inSlot .modeled Attempt.judgeDeclared

def service : Classifier := inSlot .service Attempt.judgeCode

def status (codes : StatusCodes := .standard) : Classifier :=
  inSlot .status (Attempt.judgeStatus codes)

/-- The four shipped classifiers, highest slot first. -/
def shipped : List Classifier := [transient, modeled, service, status]

end Classifier

end RetryVerdict
