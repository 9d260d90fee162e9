import QueryPicker.Exchange.History
import QueryPicker.Exchange.SchemaCache

/-!
# Calls of clients

A client sends what it is asked to send with settings of its own; whatever comes back goes into the
history or into the cache of schemas. Any number of clients share a cache, so a run of the cache
takes calls of all of them, between which schemas may be inserted and cleared.
-/

namespace QueryPicker

structure Client where
  settings : ClientSettings
  /-- What comes of sending a request. -/
  send : HttpRequest → Delivery

namespace Client

def deliver (client : Client) (endpoint : String) (r : Request) (headers : Headers) : Delivery :=
  client.send (client.settings.post endpoint r headers)

def execute (client : Client) (endpoint : String) (r : Request) (headers : Headers) : Response :=
  (client.deliver endpoint r headers).response

/-- Executes a request, and puts the exchange into the history with the time that it took. -/
def executeRecorded (client : Client) (h : History) (endpoint : String) (r : Request)
    (headers : Headers) (elapsedMs : Nat) : History × Response :=
  h.record endpoint r (client.deliver endpoint r headers) elapsedMs

/-- Asks an endpoint for its schema. -/
def introspect (client : Client) (c : SchemaCache) (endpoint : String) (headers : Headers) :
    SchemaCache × Option Schema :=
  Introspection.receive c endpoint (client.deliver endpoint Introspection.request headers)

end Client

namespace SchemaCache

inductive Step where
  | introspect (client : Client) (endpoint : String) (headers : Headers)
  | insert (endpoint : String) (s : Schema)
  | clear (endpoint : String)
  | clearAll

def perform (c : SchemaCache) : Step → SchemaCache
  | .introspect client endpoint headers => (client.introspect c endpoint headers).1
  | .insert endpoint s => (c.insert endpoint s).1
  | .clear endpoint => (c.clear endpoint).1
  | .clearAll => .empty

/-- The cache after a list of steps. -/
def run (c : SchemaCache) (steps : List Step) : SchemaCache := steps.foldl perform c

end SchemaCache

end QueryPicker
