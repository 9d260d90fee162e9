/-!
# Holds

A hold marks that something is going on. It is taken and released any number of times, and it is
held as long as it was taken more often than released. Numbered tickets make sure that what was
taken once is released at most once.
-/

namespace QueryPicker

structure Hold where
  count : Nat
  deriving DecidableEq, Inhabited

namespace Hold

def free : Hold := ⟨0⟩

def isHeld (h : Hold) : Bool := decide (0 < h.count)

def acquire (h : Hold) : Hold := ⟨h.count + 1⟩

def release (h : Hold) : Hold := ⟨h.count - 1⟩

theorem isHeld_acquire (h : Hold) : h.acquire.isHeld = true := by simp [isHeld, acquire]

end Hold

/-- A hold with the numbers of the tickets that are out, and the number of the next ticket. -/
structure TicketedHold where
  hold : Hold
  out : List Nat
  next : Nat

namespace TicketedHold

inductive Step where
  | acquire
  /-- Hands a ticket in; one that is not out has no effect. -/
  | release (ticket : Nat)
  /-- A holder takes a ticket and fails; its ticket is handed in while it fails. -/
  | failWhileHolding

def start : TicketedHold := ⟨.free, [], 0⟩

def perform (t : TicketedHold) : Step → TicketedHold
  | .acquire => ⟨t.hold.acquire, t.next :: t.out, t.next + 1⟩
  | .release ticket =>
    if ticket ∈ t.out then ⟨t.hold.release, t.out.erase ticket, t.next⟩ else t
  | .failWhileHolding => { t with hold := t.hold.acquire.release }

/-- Whether the hold is held after each step. -/
def trace (t : TicketedHold) : List Step → List Bool
  | [] => []
  | step :: steps => (t.perform step).hold.isHeld :: trace (t.perform step) steps

end TicketedHold

end QueryPicker
