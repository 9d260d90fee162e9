import QueryPicker.Exchange.Response
import QueryPicker.Order.Entries
import QueryPicker.Text.Blank

/-!
# Sending requests

A request is posted to an endpoint as JSON. What comes back always becomes a response: a failure on
the way, an empty body and a body that is no response are reported as an error of their own.
-/

namespace QueryPicker

/-- Headers in order, at most one of a name. -/
abbrev Headers := List (String × String)

structure HttpRequest where
  url : String
  headers : Headers
  timeoutMs : Nat
  body : String
  deriving DecidableEq

/-- Requests are always posted. -/
def HttpRequest.method (_ : HttpRequest) : String := "POST"

/-- What came of sending a request. -/
inductive Delivery where
  | replied (status : Nat) (body : String)
  | failed (message : String)
  deriving DecidableEq

structure ClientSettings where
  headers : Headers
  timeoutMs : Nat

namespace ClientSettings

def defaultTimeoutMs : Nat := 60000

/-- Of default headers with one name the last counts. -/
def make (headers : Headers) (timeoutMs? : Option Nat) : ClientSettings :=
  ⟨Entries.merge headers, timeoutMs?.getD defaultTimeoutMs⟩

def jsonHeaders : Headers :=
  [("Content-Type", "application/json"), ("Accept", "application/json")]

/-- The headers of a call: those for JSON, the default headers, those of the call. A later header
replaces an earlier one of its name, in the place of the earlier. -/
def headersFor (s : ClientSettings) (headers : Headers) : Headers :=
  Entries.putAll (Entries.putAll jsonHeaders s.headers) headers

def post (s : ClientSettings) (endpoint : String) (r : Request) (headers : Headers) :
    HttpRequest where
  url := endpoint
  headers := s.headersFor headers
  timeoutMs := s.timeoutMs
  body := r.text

end ClientSettings

namespace Delivery

/-- The number of characters kept of a body that is no response. -/
def snippetLength : Nat := 500

def response : Delivery → Response
  | failed message => .ofError (.ofMessage ("GraphQL execution failed: " ++ message))
  | replied status body =>
    if Text.isBlankText body then
      .ofError (.withExtension ("Empty response from server (HTTP " ++ toString status ++ ")")
        "statusCode" (.ofNat status))
    else
      match Response.read body with
      | .ok r => r
      | .error e =>
        .ofError (.withExtension ("Failed to parse GraphQL response: " ++ e.message)
          "responseBody" (.string (String.ofList (body.toList.take snippetLength))))

end Delivery

end QueryPicker
