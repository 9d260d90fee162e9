import QueryPicker.Document.Grammar
import QueryPicker.Exchange.Client
import QueryPicker.Text.Lowercase

/-!
# The history of exchanges

Executed requests with what came back, the newest first. Every entry gets a number of its own, one
higher than the last. The history holds at least one entry; when it is full, the oldest gives way.
-/

namespace QueryPicker

structure HistoryEntry where
  id : Nat
  endpoint : String
  query : String
  operationName? : Option String
  /-- Variables, data and errors are kept as JSON text. -/
  variables? : Option String
  responseData? : Option String
  responseErrors? : Option String
  executionTimeMs? : Option Nat
  deriving DecidableEq

namespace HistoryEntry

/-- The entry of an exchange that took so many milliseconds, still without a number. The time is
kept in 64 bits. -/
def ofExchange (endpoint : String) (request : Request) (response : Response) (elapsedMs : Nat) :
    HistoryEntry where
  id := 0
  endpoint
  query := request.query
  operationName? := request.operationName?
  variables? := request.variables?.map Json.compact
  responseData? := response.data?.map Json.compact
  responseErrors? :=
    if response.hasErrors then some (Response.errorsJson response.errors).compact else none
  executionTimeMs? := some (min elapsedMs (UInt64.size - 1))

/-- The first name that the query gives an operation. -/
def declaredName? (e : HistoryEntry) : Option String :=
  match Document.parse e.query with
  | .ok doc => doc.operationName?
  | .error _ => none

def displayName (e : HistoryEntry) : String :=
  (e.declaredName? <|> e.operationName?).getD "GraphQL Query"

/-- Whether a text occurs in the query, the endpoint or the name, whatever the case. -/
def mentions (e : HistoryEntry) (needle : String) : Bool :=
  let occurs (s : String) := Text.containsText (Text.lowercase s) (Text.lowercase needle)
  occurs e.query || occurs e.endpoint || e.operationName?.any occurs

def wasSuccessful (e : HistoryEntry) : Bool := e.responseErrors?.all Text.isBlankText

end HistoryEntry

structure History where
  capacity : Nat
  /-- The newest first. -/
  entries : List HistoryEntry
  next : Nat

namespace History

def defaultCapacity : Nat := 1000

def empty (capacity : Nat) : History := ⟨max capacity 1, [], 1⟩

/-- Adds an entry under a new number, which is part of the answer. -/
def add (h : History) (e : HistoryEntry) : History × Nat :=
  ({ h with
      entries := ({ e with id := h.next } :: h.entries).take h.capacity
      next := h.next + 1 }, h.next)

/-- Adds the entry of an exchange, and gives the response of it. -/
def record (h : History) (endpoint : String) (request : Request) (d : Delivery)
    (elapsedMs : Nat) : History × Response :=
  ((h.add (.ofExchange endpoint request d.response elapsedMs)).1, d.response)

def entry? (h : History) (id : Nat) : Option HistoryEntry := h.entries.find? (·.id == id)

def delete (h : History) (id : Nat) : History × Bool :=
  ({ h with entries := h.entries.filter (·.id != id) }, h.entries.any (·.id == id))

/-- Numbers go on after the history was cleared. -/
def clear (h : History) : History := { h with entries := [] }

def forEndpoint (h : History) (endpoint : String) : List HistoryEntry :=
  h.entries.filter (·.endpoint == endpoint)

/-- The entries that mention a text; all of them if it is blank. -/
def search (h : History) (needle : String) : List HistoryEntry :=
  if Text.isBlankText needle then h.entries else h.entries.filter (·.mentions needle)

def ids (h : History) : List Nat := h.entries.map (·.id)

inductive Step where
  | add (e : HistoryEntry)
  | delete (id : Nat)
  | clear

def perform (h : History) : Step → History
  | .add e => (h.add e).1
  | .delete id => (h.delete id).1
  | .clear => h.clear

/-- The number that a step answers with. -/
def number? (h : History) : Step → Option Nat
  | .add e => some (h.add e).2
  | .delete _ => none
  | .clear => none

/-- The history after a list of steps. -/
def run (h : History) (steps : List Step) : History := steps.foldl perform h

/-- The numbers that are given in the course of a run. -/
def numbers (h : History) : List Step → List Nat
  | [] => []
  | step :: steps => (h.number? step).toList ++ numbers (h.perform step) steps

end History

end QueryPicker
