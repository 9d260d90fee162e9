import QueryPicker.Document.Synthesis
import QueryPicker.Selection.Snapshot

/-!
# Sessions with listeners

Listeners are told of every committed change in the order in which they were registered, each with
the snapshot that the change made. A listener may have a follow-up step, which it runs on the
session from inside its first call; changes made there are announced at once, before the calls that
are still due. Calls that are due are kept as a list of tasks, and a session ends its tasks because
every follow-up runs only once. The log records commits, calls and answers of follow-ups in the
order in which they happen.
-/

namespace QueryPicker

inductive Listener where
  /-- The component that owns the session. -/
  | owner
  | scripted (label : Nat)
  deriving DecidableEq, Inhabited

/-- Questions about a snapshot. -/
inductive Question where
  | text
  | isSelected (p : FieldPath)
  | state (p : FieldPath)
  | childSelections (p : FieldPath)
  | childNames (p : FieldPath)
  | get (p : FieldPath)
  | forRoot (marker : String)
  | all
  | size
  | version
  | paths

inductive Step where
  | edit (e : Edit)
  /-- Edits committed as one change. -/
  | batch (edits : List Edit)
  | listen (followUp : Option Step)
  | unlisten (label : Nat)
  /-- Keeps the current snapshot. -/
  | hold
  /-- Asks about the current snapshot or about one that is held. -/
  | ask (question : Question) (held : Option Nat)
  | describe
  deriving Inhabited

inductive Answer where
  | flag (value : Bool)
  | number (value : Nat)
  | results (rs : List EditResult)
  | text (value : String)
  | state (value : CheckState)
  | selections (values : List SelectedField)
  | selection (value : Option SelectedField)
  | names (values : List String)
  | size (value : Nat)
  | paths (values : List FieldPath)
  | nothing

inductive Event where
  | committed (snapshot : Snapshot) (listeners : List Listener)
  | called (listener : Listener) (snapshot : Snapshot)
  | followedUp (label : Nat) (answer : Answer)

/-- The last part is what the owner of the session keeps beside it. -/
structure Session (ω : Type) where
  current : Snapshot
  listeners : List Listener
  nextLabel : Nat
  /-- The follow-ups that have not run yet. -/
  followUps : List (Nat × Step)
  held : List Snapshot
  log : List Event
  outside : ω

namespace Session

variable {ω : Type}

def start (outside : ω) : Session ω := ⟨.initial, [], 0, [], [], [], outside⟩

inductive Task where
  | call (listener : Listener) (snapshot : Snapshot)
  | answer (label : Nat) (value : Answer)

def record (s : Session ω) (e : Event) : Session ω := { s with log := s.log ++ [e] }

/-- Commits a batch; if it is a change, every listener registered now has to be called. -/
def commit (s : Session ω) (b : Batch) : Session ω × List Task :=
  match s.current.commit? b with
  | some next =>
    (({ s with current := next } : Session ω).record (.committed next s.listeners),
      s.listeners.map fun l => .call l next)
  | none => (s, [])

def answerTo (snapshot : Snapshot) : Question → Answer
  | .text => .text snapshot.selections.text
  | .isSelected p => .flag (snapshot.selections.isSelected p)
  | .state p => .state (snapshot.selections.state p)
  | .childSelections p => .selections (snapshot.selections.childSelections p)
  | .childNames p => .names (snapshot.selections.childNames p)
  | .get p => .selection (snapshot.selections.get? p)
  | .forRoot marker => .selections (snapshot.selections.forRoot marker)
  | .all => .selections snapshot.selections.entries
  | .size => .size snapshot.selections.size
  | .version => .number snapshot.version
  | .paths => .paths snapshot.selections.paths

/-- The summary of a session in which nothing is selected. -/
def summary (s : Session ω) : String :=
  "SelectionStore \x7b selections: SelectionMap(\x7b\x7d), version: " ++
    toString s.current.version ++ ", listeners: " ++ toString s.listeners.length ++ " \x7d"

def listen (s : Session ω) (followUp : Option Step) : Session ω × Nat :=
  let label := s.nextLabel
  ({ s with
      listeners := s.listeners ++ [.scripted label]
      nextLabel := label + 1
      followUps := match followUp with
        | some step => s.followUps ++ [(label, step)]
        | none => s.followUps }, label)

/-- A follow-up that has not run stays: a call may still be due. -/
def unlisten (s : Session ω) (l : Listener) : Session ω × Bool :=
  ({ s with listeners := s.listeners.filter (· != l) }, s.listeners.contains l)

/-- Does a step, and lists the calls that are due because of it. -/
def perform (s : Session ω) : Step → Session ω × Answer × List Task
  | .edit e =>
    let (b, r) := (Batch.start s.current.selections).apply e
    let (s, calls) := s.commit b
    (s, .flag r.truth, calls)
  | .batch edits =>
    let (b, rs) := (Batch.start s.current.selections).applyAll edits
    let (s, calls) := s.commit b
    (s, .results rs, calls)
  | .listen followUp =>
    let (s, label) := s.listen followUp
    (s, .number label, [])
  | .unlisten label =>
    let (s, removed) := s.unlisten (.scripted label)
    (s, .flag removed, [])
  | .hold => ({ s with held := s.held ++ [s.current] }, .number s.held.length, [])
  | .ask question none => (s, answerTo s.current question, [])
  | .ask question (some index) =>
    (s, match s.held[index]? with
      | some snapshot => answerTo snapshot question
      | none => .nothing, [])
  | .describe => (s, .text s.summary, [])

/-- Takes the follow-up of a listener, if it has not run yet. -/
def takeFollowUp? (label : Nat) : List (Nat × Step) → Option (Step × List (Nat × Step))
  | [] => none
  | (l, step) :: rest =>
    if l = label then some (step, rest)
    else (takeFollowUp? label rest).map fun (found, others) => (found, (l, step) :: others)

/-- One for the step and one for every follow-up inside it. -/
def weight : Step → Nat
  | .listen (some step) => weight step + 1
  | _ => 1

def pendingWeight : List (Nat × Step) → Nat
  | [] => 0
  | (_, step) :: followUps => weight step + pendingWeight followUps

theorem pendingWeight_append (as bs : List (Nat × Step)) :
    pendingWeight (as ++ bs) = pendingWeight as + pendingWeight bs := by
  induction as with
  | nil => simp [pendingWeight]
  | cons a as ih => simp only [List.cons_append, pendingWeight, ih, Nat.add_assoc]

theorem followUps_commit (s : Session ω) (b : Batch) :
    (s.commit b).1.followUps = s.followUps := by
  unfold commit
  split <;> rfl

theorem pendingWeight_perform (s : Session ω) (step : Step) :
    pendingWeight (s.perform step).1.followUps < pendingWeight s.followUps + weight step := by
  cases step with
  | edit e => simp [perform, followUps_commit, weight]
  | batch edits => simp [perform, followUps_commit, weight]
  | listen followUp =>
    cases followUp with
    | none => simp [perform, listen, weight]
    | some step => simp [perform, listen, weight, pendingWeight_append, pendingWeight]
  | unlisten label => simp [perform, unlisten, weight]
  | hold => simp [perform, weight]
  | ask question held =>
    cases held <;> simp [perform, weight]
  | describe => simp [perform, weight]

theorem pendingWeight_takeFollowUp? {label : Nat} {followUps rest : List (Nat × Step)}
    {step : Step} (h : takeFollowUp? label followUps = some (step, rest)) :
    pendingWeight rest + weight step = pendingWeight followUps := by
  induction followUps generalizing rest with
  | nil => simp [takeFollowUp?] at h
  | cons e es ih =>
    obtain ⟨l, first⟩ := e
    unfold takeFollowUp? at h
    split at h
    · obtain ⟨rfl, rfl⟩ := by simpa using h
      simp [pendingWeight, Nat.add_comm]
    · obtain ⟨⟨found, others⟩, h', heq⟩ := Option.map_eq_some_iff.mp h
      obtain ⟨rfl, rfl⟩ := by simpa using heq
      have := ih h'
      simp only [pendingWeight]
      omega

/-- Ends the tasks. The owner's calls only change what it keeps beside the session. -/
def drain (react : Snapshot → ω → ω) (s : Session ω) : List Task → Session ω
  | [] => s
  | .answer label value :: tasks => drain react (s.record (.followedUp label value)) tasks
  | .call .owner snapshot :: tasks =>
    let s := s.record (.called .owner snapshot)
    drain react { s with outside := react snapshot s.outside } tasks
  | .call (.scripted label) snapshot :: tasks =>
    let s' := s.record (.called (.scripted label) snapshot)
    match h : takeFollowUp? label s'.followUps with
    | none => drain react s' tasks
    | some (step, rest) =>
      let done := ({ s' with followUps := rest } : Session ω).perform step
      have : pendingWeight done.1.followUps < pendingWeight s.followUps := by
        have hperform := pendingWeight_perform ({ s' with followUps := rest } : Session ω) step
        have htake := pendingWeight_takeFollowUp? h
        have hsame : s'.followUps = s.followUps := rfl
        rw [hsame] at htake
        exact htake ▸ hperform
      drain react done.1 (done.2.2 ++ .answer label done.2.1 :: tasks)
termination_by tasks => (pendingWeight s.followUps, tasks.length)
decreasing_by
  · exact Prod.Lex.right _ (by simp)
  · exact Prod.Lex.right _ (by simp)
  · exact Prod.Lex.right _ (by simp)
  · exact Prod.Lex.left _ _ this

/-- A step with all the calls that it leads to. -/
def run (react : Snapshot → ω → ω) (s : Session ω) (step : Step) : Session ω × Answer :=
  let (s, answer, calls) := s.perform step
  (s.drain react calls, answer)

/-- A change made by the owner, with all the calls that it leads to. -/
def change (react : Snapshot → ω → ω) (s : Session ω) (b : Batch) : Session ω :=
  let (s, calls) := s.commit b
  s.drain react calls

end Session

end QueryPicker
