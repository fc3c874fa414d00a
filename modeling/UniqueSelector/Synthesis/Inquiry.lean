import UniqueSelector.Synthesis.Failure
import UniqueSelector.Synthesis.Trace

/-!
# Inquiry — computations that ask queries

A search asks queries and goes on with the answers. What it asks is kept apart from who answers, so
that a fact about a search can be stated for every provider of answers, whether it looks into a
document, follows a script or changes its mind between two calls.
-/

namespace UniqueSelector

/-- What a provider says to a query. -/
abbrev Answer (α : Type) := Except QueryError α

/-! ## 1. Asking -/

/-- A computation that ends with a value after finitely many queries and events. -/
inductive Inquiry (α : Type) where
  | done (value : α)
  /-- Asks for all elements that fit. -/
  | askAll (selector : String) (scope : NodeId) (next : Answer (List NodeId) → Inquiry α)
  /-- Asks for the first element that fits. -/
  | askOne (selector : String) (scope : NodeId) (next : Answer (Option NodeId) → Inquiry α)
  /-- Tells what is going on. -/
  | tell (event : TraceEvent) (next : Inquiry α)

namespace Inquiry

/-- Goes on with the value of `x`. -/
def andThen (x : Inquiry α) (f : α → Inquiry β) : Inquiry β :=
  match x with
  | .done value => f value
  | .askAll selector scope next => .askAll selector scope fun answer => (next answer).andThen f
  | .askOne selector scope next => .askOne selector scope fun answer => (next answer).andThen f
  | .tell event next => .tell event (next.andThen f)

instance : Monad Inquiry where
  pure := done
  bind := andThen

theorem andThen_done (x : Inquiry α) : x.andThen .done = x := by
  induction x with
  | done => rfl
  | askAll selector scope next ih => simp only [andThen, ih]
  | askOne selector scope next ih => simp only [andThen, ih]
  | tell event next ih => simp only [andThen, ih]

theorem andThen_assoc (x : Inquiry α) (f : α → Inquiry β) (g : β → Inquiry γ) :
    (x.andThen f).andThen g = x.andThen fun value => (f value).andThen g := by
  induction x with
  | done => rfl
  | askAll selector scope next ih => simp only [andThen, ih]
  | askOne selector scope next ih => simp only [andThen, ih]
  | tell event next ih => simp only [andThen, ih]

instance : LawfulMonad Inquiry :=
  LawfulMonad.mk' Inquiry andThen_done (fun _ _ => rfl) andThen_assoc

end Inquiry

/-- An inquiry that may fail. -/
abbrev Attempt := ExceptT Failure Inquiry

namespace Attempt

/-- All elements that fit; a failed query fails the attempt. -/
def all (selector : String) (scope : NodeId) : Attempt (List NodeId) :=
  .mk (.askAll selector scope fun answer => .done (answer.mapError Failure.query))

def one (selector : String) (scope : NodeId) : Attempt (Option NodeId) :=
  .mk (.askOne selector scope fun answer => .done (answer.mapError Failure.query))

def tell (event : TraceEvent) : Attempt Unit := .mk (.tell event (.done (.ok ())))

end Attempt

/-! ## 2. Answering -/

/-- Somebody who answers queries and may remember them. -/
structure Provider (σ : Type) where
  all : (selector : String) → (scope : NodeId) → σ → Answer (List NodeId) × σ
  one : (selector : String) → (scope : NodeId) → σ → Answer (Option NodeId) × σ

namespace Provider

/-- The document itself. -/
def ofDocument (t : Document) : Provider Unit where
  all selector scope _ := (t.queryAll selector scope, ())
  one selector scope _ := (t.queryOne selector scope, ())

/-- Who knows how to find all elements finds the first one among them. -/
def ofAll (all : String → NodeId → σ → Answer (List NodeId) × σ) : Provider σ where
  all := all
  one selector scope s :=
    let (answer, s) := all selector scope s
    (answer.map List.head?, s)

/-- One answer of a scripted provider. -/
inductive Cue where
  /-- These elements are found. -/
  | found (ids : List NodeId)
  /-- The scope is refused. -/
  | refused
  /-- The document is asked. -/
  | truth
deriving DecidableEq

/-- Answers along a script, whose remainder is the state; behind its end the document is asked. -/
def scripted (t : Document) : Provider (List Cue) where
  all selector scope script :=
    match script with
    | .found ids :: script => (.ok ids, script)
    | .refused :: script => (.error (.invalidScope scope), script)
    | .truth :: script => (t.queryAll selector scope, script)
    | [] => (t.queryAll selector scope, [])
  one selector scope script :=
    match script with
    | .found ids :: script => (.ok ids.head?, script)
    | .refused :: script => (.error (.invalidScope scope), script)
    | .truth :: script => (t.queryOne selector scope, script)
    | [] => (t.queryOne selector scope, [])

end Provider

/-! ## 3. Both together -/

/-- A query with its answer. -/
inductive Exchange where
  | all (selector : String) (scope : NodeId) (answer : Answer (List NodeId))
  | one (selector : String) (scope : NodeId) (answer : Answer (Option NodeId))

/-- What was asked and told, in order. -/
structure Transcript where
  exchanges : Array Exchange := #[]
  trace : Array TraceEvent := #[]

/-- Where a run has come to: what the provider remembers, and what was asked and told. -/
structure Progress (σ : Type) where
  state : σ
  transcript : Transcript := {}

namespace Progress

def exchange (r : Progress σ) (state : σ) (e : Exchange) : Progress σ :=
  ⟨state, { r.transcript with exchanges := r.transcript.exchanges.push e }⟩

def tell (r : Progress σ) (event : TraceEvent) : Progress σ :=
  { r with transcript := { r.transcript with trace := r.transcript.trace.push event } }

end Progress

namespace Inquiry

/-- Lets `p` answer: the value, and where the run has come to. -/
def run (p : Provider σ) : Inquiry α → Progress σ → α × Progress σ
  | .done value, r => (value, r)
  | .askAll selector scope next, r =>
    let (answer, state) := p.all selector scope r.state
    run p (next answer) (r.exchange state (.all selector scope answer))
  | .askOne selector scope next, r =>
    let (answer, state) := p.one selector scope r.state
    run p (next answer) (r.exchange state (.one selector scope answer))
  | .tell event next, r => run p next (r.tell event)

theorem run_andThen (p : Provider σ) (x : Inquiry α) (f : α → Inquiry β) (r : Progress σ) :
    (x.andThen f).run p r = (f (x.run p r).1).run p (x.run p r).2 := by
  induction x generalizing r with
  | done => rfl
  | askAll selector scope next ih => exact ih _ _
  | askOne selector scope next ih => exact ih _ _
  | tell event next ih => exact ih _

end Inquiry

/-- The run goes on with the value, or ends in the failure. -/
theorem Attempt.run_bind (p : Provider σ) (x : Attempt α) (next : α → Attempt β) (r : Progress σ) :
    Inquiry.run p (x >>= next).run r =
      match Inquiry.run p x.run r with
      | (.ok value, r') => Inquiry.run p (next value).run r'
      | (.error f, r') => (.error f, r') := by
  rw [ExceptT.run_bind]
  show Inquiry.run p (Inquiry.andThen x.run _) r = _
  rw [Inquiry.run_andThen]
  cases Inquiry.run p x.run r with
  | mk result r' => cases result <;> rfl

/-- The result of an attempt when `p` answers from the state `s` on, and what happened. -/
def Attempt.outcome (p : Provider σ) (s : σ) (x : Attempt α) : Except Failure α × Transcript :=
  let r := Inquiry.run p x.run ⟨s, {}⟩
  (r.1, r.2.transcript)

def Attempt.result (p : Provider σ) (s : σ) (x : Attempt α) : Except Failure α := (x.outcome p s).1

end UniqueSelector
