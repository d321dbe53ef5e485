import MiniOpera.EventCheck
import MiniOpera.Lib.Batches
import MiniOpera.Lib.Holdings
import MiniOpera.Lib.Threads

/-!
# The pool of package `heavycheck`

`Enqueue` cuts its events into tasks and sends them to `tasksQ`; the workers of
`loop` receive tasks, validate their events one by one and call `onValidated`.
`Stop` closes `quit` and waits for the workers. Any number of calls of `Enqueue`
and of workers run at the same time, and the keys that `Validate` reads change when
an epoch is sealed. Where both branches of a `select` are ready, either may be taken.

The calls of `onValidated` so far are the `reports`.
-/

namespace MiniOpera.HeavyCheck
open GoRuntime InterEvent EventCheck Threads

def maxQueuedTasks : Nat := 128

def maxBatch : Nat := 4

structure TaskData where
  events : List Event
  /-- The call of `Enqueue` whose `onValidated` is called. -/
  call : Nat

/-- The error of an event, nil if ok. -/
abbrev Result := Option CheckError

/-- Where a call of `Enqueue` is. -/
inductive CallPc
  /-- at the `select`, with the loop variable -/
  | sending (start : Nat)
  /-- has returned; `errTerminated` or nil -/
  | returned (terminated : Bool)
  deriving DecidableEq

structure Call where
  events : List Event
  pc : CallPc

/-- Where a worker is in `loop`. -/
inductive Worker
  | selecting
  /-- with the results that have been written -/
  | validating (op : TaskData) (result : List Result)
  | ended

def Worker.task : Worker → Option TaskData
  | .validating op _ => some op
  | _ => none

def Worker.running : Worker → Bool
  | .ended => false
  | _ => true

inductive Phase
  | created
  | started
  /-- `quit` is closed, in `wg.Wait()` -/
  | stopping
  | stopped
  deriving DecidableEq

/-- `onValidated(op.Events, op.Result)`. -/
structure Report where
  op : TaskData
  result : List Result

structure System where
  phase : Phase
  workers : List Worker
  wg : Nat
  tasksQ : List TaskData
  calls : List Call
  reports : List Report
  /-- What `reader` has published, the newest first. -/
  published : List ValidatorsPubKeys
  panicked : Bool

inductive Action
  | start (numOfThreads : Nat)
  | enqueue (events : List Event)
  | send (c : Nat)
  | terminate (c : Nat)
  | receive (w : Nat)
  | validate (w : Nat)
  | report (w : Nat)
  | quit (w : Nat)
  | publish (keys : ValidatorsPubKeys)
  | stop
  | wait

section Verdict

variable (verifySignature : List UInt8 → Hash → Signature → Bool)

/-- What `Validate` returns, unless it panics. -/
def verdict (keys : ValidatorsPubKeys) (e : Event) : Option Result :=
  match heavyCheck verifySignature keys e with
  | .ok () => some none
  | .error (.error err) => some (some err)
  | .error (.panic _) => none

theorem verdict_valid {keys : ValidatorsPubKeys} {e : Event}
    (h : verdict verifySignature keys e = some none) :
    heavyCheck verifySignature keys e = .ok () := by
  unfold verdict at h
  split at h
  · assumption
  · cases h
  · cases h

end Verdict

/-- The head of the loop of `Enqueue`. -/
def Call.loop (events : List Event) (start : Nat) : Call :=
  ⟨events, if start < events.length then .sending start else .returned false⟩

/-- The task of one iteration. -/
def nextTask (events : List Event) (start c : Nat) : TaskData :=
  let stop := if events.length > start + maxBatch then start + maxBatch else events.length
  ⟨(events.take stop).drop start, c⟩

namespace System

def init (keys : ValidatorsPubKeys) : System := ⟨.created, [], 0, [], [], [], [keys], false⟩

/-- `quit` is closed. -/
def quitting (s : System) : Bool := s.phase = .stopping || s.phase = .stopped

/-- Every task that was sent and where it is: reported, in work, or queued. -/
def tasks (s : System) : List TaskData :=
  s.reports.map Report.op ++ Holdings.holdings Worker.task s.workers ++ s.tasksQ

section Step

variable (verifySignature : List UInt8 → Hash → Signature → Bool)

def move (s : System) : Action → Option System
  | .start n =>
    if s.phase = .created then
      some { s with phase := .started, workers := List.replicate n .selecting, wg := n }
    else none
  | .enqueue events => some { s with calls := s.calls ++ [Call.loop events 0] }
  | .send c =>
    match s.calls[c]? with
    | some ⟨events, .sending start⟩ =>
      if s.tasksQ.length < maxQueuedTasks then
        some { s with
          tasksQ := s.tasksQ ++ [nextTask events start c]
          calls := s.calls.set c (Call.loop events (start + maxBatch)) }
      else none
    | _ => none
  | .terminate c =>
    match s.calls[c]? with
    | some ⟨events, .sending _⟩ =>
      if s.quitting then some { s with calls := s.calls.set c ⟨events, .returned true⟩ }
      else none
    | _ => none
  | .receive w =>
    match s.workers[w]?, s.tasksQ with
    | some .selecting, op :: rest =>
      some { s with workers := s.workers.set w (.validating op []), tasksQ := rest }
    | _, _ => none
  | .validate w =>
    match s.workers[w]?, s.published with
    | some (.validating op result), keys :: _ =>
      match op.events[result.length]? with
      | none => none
      | some e =>
        match verdict verifySignature keys e with
        | some r => some { s with workers := s.workers.set w (.validating op (result ++ [r])) }
        | none => some { s with panicked := true }
    | _, _ => none
  | .report w =>
    match s.workers[w]? with
    | some (.validating op result) =>
      if result.length = op.events.length then
        some { s with
          workers := s.workers.set w .selecting
          reports := s.reports ++ [⟨op, result⟩] }
      else none
    | _ => none
  | .quit w =>
    match s.workers[w]? with
    | some .selecting =>
      if s.quitting then some { s with workers := s.workers.set w .ended, wg := s.wg - 1 } else none
    | _ => none
  | .publish keys => some { s with published := keys :: s.published }
  | .stop => if s.phase = .started then some { s with phase := .stopping } else none
  | .wait => if s.phase = .stopping ∧ s.wg = 0 then some { s with phase := .stopped } else none

/-- There is no step after a panic. -/
def step (s : System) (action : Action) : Option System :=
  if s.panicked then none else s.move verifySignature action

end Step

end System

/-! ## What a step can do -/

section Moves

variable (verifySignature : List UInt8 → Hash → Signature → Bool) (s : System)

inductive Moves : Action → System → Prop
  | start {n : Nat} (h : s.phase = .created) :
      Moves (.start n) { s with phase := .started, workers := List.replicate n .selecting, wg := n }
  | enqueue {events : List Event} :
      Moves (.enqueue events) { s with calls := s.calls ++ [Call.loop events 0] }
  | send {c start : Nat} {events : List Event}
  (hc : s.calls[c]? = some ⟨events, .sending start⟩)
      (hroom : s.tasksQ.length < maxQueuedTasks) :
      Moves (.send c) { s with
        tasksQ := s.tasksQ ++ [nextTask events start c]
        calls := s.calls.set c (Call.loop events (start + maxBatch)) }
  | terminate {c start : Nat} {events : List Event}
      (hc : s.calls[c]? = some ⟨events, .sending start⟩) (hquit : s.quitting = true) :
      Moves (.terminate c) { s with calls := s.calls.set c ⟨events, .returned true⟩ }
  | receive {w : Nat} {op : TaskData} {rest : List TaskData} (hw : s.workers[w]? = some .selecting)
      (hq : s.tasksQ = op :: rest) :
      Moves (.receive w) { s with workers := s.workers.set w (.validating op []), tasksQ := rest }
  | validate {w : Nat} {op : TaskData} {result : List Result} {keys : ValidatorsPubKeys}
      {older : List ValidatorsPubKeys} {e : Event} {r : Result}
      (hw : s.workers[w]? = some (.validating op result)) (hkeys : s.published = keys :: older)
      (he : op.events[result.length]? = some e) (hr : verdict verifySignature keys e = some r) :
      Moves (.validate w) { s with workers := s.workers.set w (.validating op (result ++ [r])) }
  | panic {w : Nat} {op : TaskData} {result : List Result} {keys : ValidatorsPubKeys}
      {older : List ValidatorsPubKeys} {e : Event}
      (hw : s.workers[w]? = some (.validating op result)) (hkeys : s.published = keys :: older)
      (he : op.events[result.length]? = some e) (hr : verdict verifySignature keys e = none) :
      Moves (.validate w) { s with panicked := true }
  | report {w : Nat} {op : TaskData} {result : List Result}
      (hw : s.workers[w]? = some (.validating op result))
      (hall : result.length = op.events.length) :
      Moves (.report w)
        { s with workers := s.workers.set w .selecting, reports := s.reports ++ [⟨op, result⟩] }
  | quit {w : Nat} (hw : s.workers[w]? = some .selecting) (hquit : s.quitting = true) :
      Moves (.quit w) { s with workers := s.workers.set w .ended, wg := s.wg - 1 }
  | publish {keys : ValidatorsPubKeys} :
      Moves (.publish keys) { s with published := keys :: s.published }
  | stop (h : s.phase = .started) : Moves .stop { s with phase := .stopping }
  | wait (h : s.phase = .stopping) (hwg : s.wg = 0) : Moves .wait { s with phase := .stopped }

variable {verifySignature s}

theorem step_moves {s' : System} {action : Action} (h : s.step verifySignature action = some s') :
    Moves verifySignature s action s' := by
  obtain ⟨-, hmove⟩ := Option.ite_none_left_eq_some.mp h
  cases action with
  | start n =>
    obtain ⟨hphase, heq⟩ := Option.ite_none_right_eq_some.mp hmove
    cases heq
    exact .start hphase
  | enqueue events =>
    cases hmove
    exact .enqueue
  | send c =>
    simp only [System.move] at hmove
    split at hmove
    · next hc =>
      obtain ⟨hroom, heq⟩ := Option.ite_none_right_eq_some.mp hmove
      cases heq
      exact .send hc hroom
    · cases hmove
  | terminate c =>
    simp only [System.move] at hmove
    split at hmove
    · next hc =>
      obtain ⟨hquit, heq⟩ := Option.ite_none_right_eq_some.mp hmove
      cases heq
      exact .terminate hc hquit
    · cases hmove
  | receive w =>
    simp only [System.move] at hmove
    split at hmove
    · next hw hq =>
      cases hmove
      exact .receive hw hq
    · cases hmove
  | validate w =>
    simp only [System.move] at hmove
    split at hmove
    · next hw hkeys =>
      split at hmove
      · cases hmove
      · next e he =>
        split at hmove
        · next r hr =>
          cases hmove
          exact .validate hw hkeys he hr
        · next hr =>
          cases hmove
          exact .panic hw hkeys he hr
    · cases hmove
  | report w =>
    simp only [System.move] at hmove
    split at hmove
    · next hw =>
      obtain ⟨hall, heq⟩ := Option.ite_none_right_eq_some.mp hmove
      cases heq
      exact .report hw hall
    · cases hmove
  | quit w =>
    simp only [System.move] at hmove
    split at hmove
    · next hw =>
      obtain ⟨hquit, heq⟩ := Option.ite_none_right_eq_some.mp hmove
      cases heq
      exact .quit hw hquit
    · cases hmove
  | publish keys =>
    cases hmove
    exact .publish
  | stop =>
    obtain ⟨hphase, heq⟩ := Option.ite_none_right_eq_some.mp hmove
    cases heq
    exact .stop hphase
  | wait =>
    obtain ⟨⟨hphase, hzero⟩, heq⟩ := Option.ite_none_right_eq_some.mp hmove
    cases heq
    exact .wait hphase hzero

end Moves

end MiniOpera.HeavyCheck
