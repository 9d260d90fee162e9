import QueryPicker.Json.Record
import QueryPicker.Json.Writer

/-!
# Requests

What is asked of a server: a query text, variables for it, and which of its operations to run. It is
sent as a JSON object without the parts that are absent.
-/

namespace QueryPicker

structure Request where
  query : String
  variables? : Option Json
  operationName? : Option String
  deriving Inhabited

namespace Request

def toJson (r : Request) : Json :=
  .object (("query", .string r.query) :: Json.memberIf "variables" id r.variables? ++
    Json.memberIf "operationName" Json.string r.operationName?)

def text (r : Request) : String := r.toJson.compact

def parts : List String := ["query", "variables", "operationName"]

/-- Reads a request back. -/
def ofText? (text : String) : Option Request := do
  let parts ← Json.Record.parts? parts text.toList
  let query ← Json.Record.required? Json.Record.text? parts "query"
  let variables? ← Json.Record.optional? (Json.Record.value? (Json.Reader.depthLimit - 1)) parts
    "variables"
  let operationName? ← Json.Record.optional? Json.Record.text? parts "operationName"
  return { query, variables?, operationName? }

end Request

end QueryPicker
