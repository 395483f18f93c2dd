-- SUMMARY: The head of an HTTP response, and what it says about the body that follows.
import Bpt.Util.String

/-!
# HTTP responses

Of the headers only those are kept that the client reads. A header that occurs
more than once counts with its first value.
-/

namespace Bpt.Http

inductive Version where
  | v1_0
  | v1_1
  | other
  deriving DecidableEq

/-- `http_response_info`. -/
structure ResponseInfo where
  status : Int
  version : Version := .v1_1
  contentLengthHeader : Option String := none
  transferEncoding : Option String := none
  connection : Option String := none
  location : Option String := none
  deriving DecidableEq

namespace ResponseInfo

def isClientError (r : ResponseInfo) : Bool := 400 ≤ r.status && r.status < 500

def isServerError (r : ResponseInfo) : Bool := 500 ≤ r.status && r.status < 600

def isError (r : ResponseInfo) : Bool := r.isClientError || r.isServerError

def isRedirect (r : ResponseInfo) : Bool := 300 ≤ r.status && r.status < 400

def notModified (r : ResponseInfo) : Bool := r.status = 304

/-- The number that the header begins with, if it begins with one. -/
def contentLength (r : ResponseInfo) : Option Int :=
  r.contentLengthHeader.bind fun value => fromCharsInt value.toList

/-- Whether the server is going to close the connection. -/
def disconnects (r : ResponseInfo) : Bool :=
  match r.version with
  | .v1_0 => true
  | .v1_1 => r.connection = some "close"
  | .other => true

/-- A response of this status has no body, whatever its headers say. -/
def bodyless (r : ResponseInfo) : Bool := r.status < 200 || r.status = 204 || r.status = 304

/-- A body follows the head. A transfer encoding overrides the length. -/
def hasBody (r : ResponseInfo) : Bool :=
  !r.bodyless && !(r.transferEncoding = none && r.contentLength = some 0)

/-- `request` gives the response to its caller. -/
def isReturned (r : ResponseInfo) : Bool := r.notModified || !(r.isError || r.isRedirect)

/-- The client reads a body from the connection. -/
def streams (r : ResponseInfo) : Bool := !r.bodyless && r.contentLength ≠ some 0

/-- A body of the response can be delimited by the client. -/
def Framed (r : ResponseInfo) : Prop :=
  r.transferEncoding = some "chunked" ∨ r.transferEncoding = some "gzip" ∨
    (r.transferEncoding = none ∧ ∃ n, r.contentLength = some n ∧ 0 < n) ∨ r.version = .v1_0

/-- The response can be read to its end: its length is not given as `0`, and it
has no body or one that can be delimited, unless it is taken to be empty and the
connection is closed. -/
def Readable (r : ResponseInfo) : Prop :=
  r.contentLengthHeader ≠ some "0" ∧
    (r.bodyless = true ∨
      (r.contentLength = some 0 ∧ (r.transferEncoding = none ∨ r.disconnects = true)) ∨
      (r.contentLength ≠ some 0 ∧ r.Framed))

end ResponseInfo

end Bpt.Http
