import QueryPicker.Exchange.Request

/-!
# Responses

What a server answers: data, errors and extensions, each of which may be absent. The body of an
answer has to be a JSON object; within it every part is taken for itself, and a part of the wrong
form counts as absent. The stored form of a response is read strictly.
-/

namespace QueryPicker

structure ErrorLocation where
  line : UInt32
  column : UInt32
  deriving DecidableEq, Inhabited

namespace ErrorLocation

def coordinate? (value : Json) : Option UInt32 :=
  value.nat?.bind fun n => if n < UInt32.size then some (UInt32.ofNat n) else none

def ofJson? (value : Json) : Option ErrorLocation := do
  let line ← (value.get? "line").bind coordinate?
  let column ← (value.get? "column").bind coordinate?
  return ⟨line, column⟩

def toJson (l : ErrorLocation) : Json :=
  .object [("line", .ofNat l.line.toNat), ("column", .ofNat l.column.toNat)]

end ErrorLocation

/-- One of the errors that a response reports. -/
structure ResponseError where
  message : String
  locations? : Option (List ErrorLocation)
  path? : Option (List Json)
  extensions? : Option Json.Members
  deriving Inhabited

namespace ResponseError

def ofMessage (message : String) : ResponseError := ⟨message, none, none, none⟩

/-- An error made here, with one extension. -/
def withExtension (message name : String) (value : Json) : ResponseError :=
  ⟨message, none, none, some [(name, value)]⟩

def unknownMessage : String := "Unknown error"

/-- Reads an error; any object is one. Locations of the wrong form are skipped. -/
def ofJson? (value : Json) : Option ResponseError :=
  value.members?.map fun _ =>
    { message := ((value.get? "message").bind Json.string?).getD unknownMessage
      locations? := ((value.get? "locations").bind Json.array?).map
        (·.filterMap ErrorLocation.ofJson?)
      path? := (value.get? "path").bind Json.array?
      extensions? := (value.get? "extensions").bind Json.members? }

def toJson (e : ResponseError) : Json :=
  .object (("message", .string e.message) ::
    Json.memberIf "locations" (fun ls => .array (ls.map ErrorLocation.toJson)) e.locations? ++
    Json.memberIf "path" Json.array e.path? ++
    Json.memberIf "extensions" Json.object e.extensions?)

end ResponseError

structure Response where
  data? : Option Json
  errors? : Option (List ResponseError)
  extensions? : Option Json.Members
  deriving Inhabited

inductive BodyError where
  | notJson (e : JsonError)
  | notObject
  deriving DecidableEq

def BodyError.message : BodyError → String
  | .notJson e => e.message
  | .notObject => "expected the response body to be a JSON object"

namespace Response

/-- A response that holds nothing but an error. -/
def ofError (e : ResponseError) : Response := ⟨none, some [e], none⟩

def notNull? : Json → Option Json
  | .null => none
  | value => some value

def ofJson? (value : Json) : Option Response :=
  value.members?.map fun _ =>
    { data? := (value.get? "data").bind notNull?
      errors? := ((value.get? "errors").bind Json.array?).map (·.filterMap ResponseError.ofJson?)
      extensions? := (value.get? "extensions").bind Json.members? }

/-- Reads the body of an answer. -/
def read (body : String) : Except BodyError Response :=
  match Json.parse body with
  | .error e => .error (.notJson e)
  | .ok value =>
    match ofJson? value with
    | some r => .ok r
    | none => .error .notObject

def errorsJson (errors : List ResponseError) : Json :=
  .array (errors.map ResponseError.toJson)

def toJson (r : Response) : Json :=
  .object (Json.memberIf "data" id r.data? ++ Json.memberIf "errors" errorsJson r.errors? ++
    Json.memberIf "extensions" Json.object r.extensions?)

def text (r : Response) : String := r.toJson.compact

def errors (r : Response) : List ResponseError := r.errors?.getD []

def hasErrors (r : Response) : Bool := !r.errors.isEmpty

def isSuccessful (r : Response) : Bool := !r.hasErrors

def messages (r : Response) : List String := r.errors.map (·.message)

open Json.Record

/-- How deep values may nest in a record at that level; the response is at the first level. -/
def depthBelow (level : Nat) : Nat := Json.Reader.depthLimit - level

def membersText? (depth : Nat) (text : List Char) : Option Json.Members :=
  (value? depth text).bind Json.members?

def coordinateText? (text : List Char) : Option UInt32 :=
  (value? 0 text).bind ErrorLocation.coordinate?

def locationText? (text : List Char) : Option ErrorLocation := do
  let parts ← parts? ["line", "column"] text
  let line ← required? coordinateText? parts "line"
  let column ← required? coordinateText? parts "column"
  return ⟨line, column⟩

/-- Errors are at the third level, in the list of errors. -/
def errorText? (text : List Char) : Option ResponseError := do
  let parts ← parts? ["message", "locations", "path", "extensions"] text
  let message ← required? text? parts "message"
  let locations? ← optional? (list? locationText?) parts "locations"
  let path? ← optional? (fun t => (value? (depthBelow 3) t).bind Json.array?) parts "path"
  let extensions? ← optional? (membersText? (depthBelow 3)) parts "extensions"
  return { message, locations?, path?, extensions? }

/-- Reads a stored response; every part that is there has to be of the right form. -/
def ofText? (text : String) : Option Response := do
  let parts ← parts? ["data", "errors", "extensions"] text.toList
  let data? ← optional? (value? (depthBelow 1)) parts "data"
  let errors? ← optional? (list? errorText?) parts "errors"
  let extensions? ← optional? (membersText? (depthBelow 1)) parts "extensions"
  return { data?, errors?, extensions? }

end Response

end QueryPicker
