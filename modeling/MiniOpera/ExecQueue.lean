import MiniOpera.Lib.GoRuntime

/-!
# `execqueue.go`

A queue of functions that one goroutine calls in order. The function that is
running stays at the front of the slice until the worker comes back for the next
one, and `waitNext(true)` then drops whatever is at the front. A `clear` during the
execution empties the slice; what is queued after it takes the place of the
running function and is dropped unseen.

The critical sections are atomic, `cond.Wait` ends one and the next begins when
it has been signalled. The capacity of the slice never changes, since `queue`
appends only below it. `System` adds to the queue and the worker what the results are
about: the accepted calls, those the worker was given, and those that were in
the queue at a `clear`.
-/

namespace MiniOpera.Queueing

variable {α : Type}

/-- `execQueue`; `closed` is `closeWait != nil`. -/
structure ExecQueue (α : Type) where
  funcs : List α
  capacity : Nat
  closed : Bool

/-- What the loop of `waitNext` does with the lock. -/
inductive Next (α : Type)
  | call (f : α)
  | nil
  | wait

namespace ExecQueue

def newExecQueue (capacity : Nat) : ExecQueue α := ⟨[], capacity, false⟩

/-- More function calls can be added to the execution queue. -/
def canQueue (q : ExecQueue α) : Bool := !q.closed ∧ q.funcs.length < q.capacity

/-- Adds a function call to the execution queue. Returns true if successful. -/
def queue (q : ExecQueue α) (f : α) : Bool × ExecQueue α :=
  if q.canQueue then (true, { q with funcs := q.funcs ++ [f] }) else (false, q)

/-- Drops all queued functions. -/
def clear (q : ExecQueue α) : ExecQueue α := { q with funcs := [] }

/-- The critical section of `quit`. -/
def quit (q : ExecQueue α) : ExecQueue α := { q with closed := true }

/-- Remove the function that just executed. -/
def drop (q : ExecQueue α) : ExecQueue α := { q with funcs := q.funcs.tail }

def next (q : ExecQueue α) : Next α :=
  if q.closed then .nil
  else match q.funcs with
    | f :: _ => .call f
    | [] => .wait

end ExecQueue

/-! ## The worker and its callers -/

/-- Where `loop` is: before `waitNext(false)`, in `cond.Wait`, signalled but without the
lock, in the call of a function, before `waitNext(true)`, or at its end. -/
inductive Worker (α : Type)
  | started
  | waiting
  | signalled
  | running (f : α)
  | ran (f : α)
  | ended
  deriving DecidableEq

namespace Worker

/-- `cond.Signal`. -/
def signal : Worker α → Worker α
  | waiting => signalled
  | w => w

/-- The function that is at the front because it is running, or has just run. -/
def busy : Worker α → Option α
  | running f => some f
  | ran f => some f
  | _ => none

end Worker

/-- A call of `queue` that was accepted: its number and its function. -/
structure Call (α : Type) where
  number : Nat
  f : α
  deriving DecidableEq

structure System (α : Type) where
  q : ExecQueue (Call α)
  worker : Worker (Call α)
  accepted : List (Call α)
  taken : List (Call α)
  cleared : List (Call α)

inductive Action (α : Type)
  | queue (f : α)
  | clear
  | quit
  | work
  deriving DecidableEq

def Action.isWork : Action α → Bool
  | work => true
  | _ => false

namespace System

def new (capacity : Nat) : System α := ⟨.newExecQueue capacity, .started, [], [], []⟩

/-- The loop of `waitNext`, up to its end or to `cond.Wait`. -/
def take (s : System α) : System α :=
  match s.q.next with
  | .call c => { s with worker := .running c, taken := s.taken ++ [c] }
  | .nil => { s with worker := .ended }
  | .wait => { s with worker := .waiting }

/-- The next step of the worker, if it has one. -/
def work (s : System α) : Option (System α) :=
  match s.worker with
  | .started => some s.take
  | .waiting => none
  | .signalled => some s.take
  | .running c => some { s with worker := .ran c }
  | .ran _ => some { s with q := s.q.drop }.take
  | .ended => none

def step (s : System α) : Action α → Option (System α)
  | .queue f =>
    match s.q.queue ⟨s.accepted.length, f⟩ with
    | (true, q) => some { s with
        q := q
        worker := s.worker.signal
        accepted := s.accepted ++ [⟨s.accepted.length, f⟩] }
    | (false, q) => some { s with q := q }
  | .clear => some { s with q := s.q.clear, cleared := s.cleared ++ s.q.funcs }
  | .quit => some { s with
      q := s.q.quit
      worker := if s.q.closed then s.worker else s.worker.signal }
  | .work => s.work

def run (s : System α) : List (Action α) → Option (System α)
  | [] => some s
  | a :: rest => (s.step a).bind fun s => s.run rest

end System

/-- The system after a call of `queue` that is accepted. -/
def System.accept (s : System α) (f : α) : System α :=
  { s with
    q := { s.q with funcs := s.q.funcs ++ [⟨s.accepted.length, f⟩] }
    worker := s.worker.signal
    accepted := s.accepted ++ [⟨s.accepted.length, f⟩] }

theorem step_queue (s : System α) (f : α) :
    s.step (.queue f) = some (if s.q.canQueue then s.accept f else s) := by
  unfold System.step ExecQueue.queue
  cases s.q.canQueue <;> rfl

/-- A worker that comes back from a function that was cleared meanwhile finds the
queue empty. -/
def CarefulStep (s : System α) : Action α → Prop
  | .work => ∀ c, s.worker = .ran c → c ∈ s.cleared → s.q.funcs = []
  | _ => True

/-- Every step of the run is careful. -/
def Careful (s : System α) : List (Action α) → Prop
  | [] => True
  | a :: rest => CarefulStep s a ∧ ∀ s', s.step a = some s' → Careful s' rest

/-- Every accepted call that no `clear` found in the queue has been taken or is still
in the queue; the calls are taken in the order of acceptance, none twice. -/
structure NothingLost (s : System α) : Prop where
  distinct : s.accepted.Nodup
  order : s.taken.Sublist s.accepted
  kept : ∀ c ∈ s.accepted, c ∉ s.cleared → c ∈ s.taken ∨ c ∈ s.q.funcs

end MiniOpera.Queueing
