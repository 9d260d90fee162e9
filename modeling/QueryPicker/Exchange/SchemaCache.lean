import QueryPicker.Exchange.Client
import QueryPicker.Introspection.Decoder
import QueryPicker.Introspection.Query

/-!
# Introspected schemas

The schemas of endpoints, each the last that was introspected or inserted for its endpoint. An
introspection that yields no schema leaves the cache as it is.
-/

namespace QueryPicker

structure SchemaCache where
  entries : List (String × Schema)

namespace SchemaCache

def empty : SchemaCache := ⟨[]⟩

def get? (c : SchemaCache) (endpoint : String) : Option Schema := Entries.get? c.entries endpoint

/-- The schema that was replaced is part of the answer. -/
def insert (c : SchemaCache) (endpoint : String) (s : Schema) : SchemaCache × Option Schema :=
  (⟨Entries.put c.entries endpoint s⟩, c.get? endpoint)

def clear (c : SchemaCache) (endpoint : String) : SchemaCache × Bool :=
  (⟨c.entries.filter (·.1 != endpoint)⟩, (c.get? endpoint).isSome)

def size (c : SchemaCache) : Nat := c.entries.length

end SchemaCache

namespace Introspection

def request : Request := ⟨query, none, some operationName⟩

/-- The schema in a response without errors. -/
def schemaIn? (r : Response) : Option Schema :=
  if r.hasErrors then none
  else
    match r.data? with
    | none => none
    | some data =>
      match decode data with
      | .ok s => some s
      | .error _ => none

/-- Takes over what came back from an endpoint. -/
def receive (c : SchemaCache) (endpoint : String) (d : Delivery) : SchemaCache × Option Schema :=
  match schemaIn? d.response with
  | some s => ((c.insert endpoint s).1, some s)
  | none => (c, none)

end Introspection

end QueryPicker
