import MiniOpera.HeavyCheckRuns

/-!
# The heavy check comes to an end

The queue is bounded and `Enqueue` blocks while it is full. As long as there is a worker
and `Stop` is not called, every call can return nil and everything it sent can be
reported (`all_can_be_reported`); once `Stop` is called, every call can return and the
workers can finish what they have begun (`stop_can_return`). `Validate` dereferences the
cached hash of the event: both results need it, and so does the program.
-/

namespace MiniOpera.HeavyCheckProgress
open GoRuntime InterEvent EventCheck Threads Batching Holdings HeavyCheck HeavyCheckRuns

variable {verifySignature : List UInt8 → Hash → Signature → Bool} {s s' : System}

/-! ## No panic -/

/-- Every event handed to `Enqueue` has its hash, as after `Build` and after decoding. -/
def Hashed (s : System) : Prop :=
  ∀ call ∈ s.calls, ∀ e ∈ call.events, e.hashToSignCache.isSome = true

theorem verdict_panics {keys : ValidatorsPubKeys} {e : Event}
    (h : verdict verifySignature keys e = none) : e.hashToSignCache = none := by
  cases hhash : e.hashToSignCache with
  | none => rfl
  | some hash =>
    unfold verdict heavyCheck at h
    simp only [Event.hashToSign, hhash, ok_bind] at h
    split at h
    · cases h
    · cases h
    · next hpanic =>
      split at hpanic
      · cases hpanic
      · split at hpanic
        · cases hpanic
        · split at hpanic <;> cases hpanic

/-- The events of a task are events of its call. -/
theorem task_events (hs : Sound verifySignature s) {t : TaskData} (ht : t ∈ s.tasks) :
    ∃ call ∈ s.calls, ∀ e ∈ t.events, e ∈ call.events := by
  have hlt := hs.known t ht
  have hc := List.getElem?_eq_getElem hlt
  obtain ⟨k, hsent, -⟩ := hs.calls _ _ hc
  refine ⟨_, List.mem_of_getElem? hc, fun e he => ?_⟩
  have hmem := hsent.mem_iff.mp (List.mem_filter.mpr ⟨ht, decide_eq_true rfl⟩)
  obtain ⟨b, hb, heq⟩ := List.mem_map.mp hmem
  rw [← congrArg TaskData.events heq] at he
  rw [← batches_flatten maxBatch_pos (s.calls[t.call]).events]
  exact List.mem_flatten.mpr ⟨b, List.mem_of_mem_take hb, he⟩

theorem working_task {w : Nat} {op : TaskData} {result : List Result}
    (hw : s.workers[w]? = some (.validating op result)) : op ∈ s.tasks :=
  List.mem_append_left _ (List.mem_append_right _ (mem_holdings (f := Worker.task) hw rfl))

/-- The events of a call do not change. -/
theorem moves_calls {action : Action} (hmove : Moves verifySignature s action s')
    {c : Nat} {call : Call}
    (hc : s.calls[c]? = some call) : ∃ call', s'.calls[c]? = some call' ∧
      call'.events = call.events := by
  have hset : ∀ {d : Nat} {old new : Call}, s.calls[d]? = some old → new.events = old.events →
      ∃ call', (s.calls.set d new)[c]? = some call' ∧ call'.events = call.events := by
    intro d old new hd hevents
    by_cases heq : c = d
    · subst heq
      rw [hc] at hd
      cases hd
      obtain ⟨hlt, -⟩ := List.getElem?_eq_some_iff.mp hc
      exact ⟨new, List.getElem?_set_self hlt, hevents⟩
    · exact ⟨call, (List.getElem?_set_ne (Ne.symm heq)).trans hc, rfl⟩
  cases hmove with
  | enqueue =>
    obtain ⟨hlt, -⟩ := List.getElem?_eq_some_iff.mp hc
    exact ⟨call, (List.getElem?_append_left hlt).trans hc, rfl⟩
  | send hd => exact hset hd rfl
  | terminate hd => exact hset hd rfl
  | _ => exact ⟨call, hc, rfl⟩

theorem moves_hashed {action : Action} (hmove : Moves verifySignature s action s') (h : Hashed s') :
    Hashed s := by
  intro call hmem e he
  obtain ⟨c, hc⟩ := List.mem_iff_getElem?.mp hmem
  obtain ⟨call', hc', hevents⟩ := moves_calls hmove hc
  exact h call' (List.mem_of_getElem? hc') e (hevents ▸ he)

theorem moves_fine {action : Action} (hs : Sound verifySignature s)
    (hfine : Hashed s → s.panicked = false)
    (hmove : Moves verifySignature s action s') (hhashed : Hashed s') : s'.panicked = false := by
  have hbefore := moves_hashed hmove hhashed
  cases hmove with
  | panic hw _ he hr =>
    obtain ⟨call, hcall, hsub⟩ := task_events hs (working_task hw)
    have hhash := hbefore call hcall _ (hsub _ (List.mem_of_getElem? he))
    rw [verdict_panics hr] at hhash
    cases hhash
  | _ => exact hfine hbefore

/-! ## A measure -/

def callWork (call : Call) : Nat :=
  match call.pc with
  | .sending start => 8 * (call.events.length - start)
  | .returned _ => 0

def workerWork : Worker → Nat
  | .selecting => 1
  | .validating op result => op.events.length - result.length + 2
  | .ended => 0

/-- What is left to do, each event counted for every step it has before it. -/
def work (s : System) : Nat :=
  weigh callWork s.calls + weigh (fun op => op.events.length + 2) s.tasksQ +
    weigh workerWork s.workers + if s.phase = .stopped then 0 else 1

/-- The steps of the calls and workers that are there, and the end of `Stop`. -/
def settle (verifySignature : List UInt8 → Hash → Signature → Bool) (s : System) :
    Action → Option System
  | .start _ | .enqueue _ | .publish _ | .stop => none
  | action => s.step verifySignature action

theorem settle_moves {action : Action} (h : settle verifySignature s action = some s') :
    Moves verifySignature s action s' ∧ (Hashed s → Hashed s') ∧
      (s.phase = .started → s'.phase = .started) ∧
      s'.workers.length = s.workers.length := by
  have hstep : s.step verifySignature action = some s' := by
    cases action with
    | start n => cases h
    | enqueue events => cases h
    | publish keys => cases h
    | stop => cases h
    | _ => exact h
  have hmove := step_moves hstep
  refine ⟨hmove, ?_⟩
  have hcalls : ∀ {c : Nat} {old new : Call}, s.calls[c]? = some old →
    new.events = old.events →
      Hashed s → ∀ call ∈ s.calls.set c new, ∀ e ∈ call.events,
        e.hashToSignCache.isSome = true := by
    intro c old new hc hevents hhashed call hmem e he
    rcases List.mem_or_eq_of_mem_set hmem with hmem | rfl
    · exact hhashed call hmem e he
    · exact hhashed old (List.mem_of_getElem? hc) e (hevents ▸ he)
  cases hmove with
  | start => cases h
  | enqueue => cases h
  | publish => cases h
  | stop => cases h
  | send hc => exact ⟨hcalls hc rfl, id, rfl⟩
  | terminate hc => exact ⟨hcalls hc rfl, id, rfl⟩
  | receive => exact ⟨id, id, List.length_set⟩
  | validate => exact ⟨id, id, List.length_set⟩
  | report => exact ⟨id, id, List.length_set⟩
  | quit => exact ⟨id, id, List.length_set⟩
  | wait hphase =>
    refine ⟨id, fun hstarted => ?_, rfl⟩
    rw [hphase] at hstarted
    cases hstarted
  | panic => exact ⟨id, id, rfl⟩

theorem step_of_move {action : Action} (hfine : s.panicked = false)
    (hmove : s.move verifySignature action = some s') :
    s.step verifySignature action = some s' := by
  rw [System.step, hfine]
  exact hmove

/-- A worker with a task validates the next event or reports. -/
theorem busy_step (hs : Sound verifySignature s) (hhashed : Hashed s) (hfine : s.panicked = false)
    {w : Nat} {op : TaskData} {result : List Result}
    (hw : s.workers[w]? = some (.validating op result)) :
    ∃ action s', settle verifySignature s action = some s' ∧ work s' < work s := by
  obtain ⟨hle, -⟩ := hs.working op result (List.mem_of_getElem? hw)
  by_cases hall : result.length = op.events.length
  · refine ⟨.report w, { s with
      workers := s.workers.set w .selecting, reports := s.reports ++ [⟨op, result⟩] }, ?_, ?_⟩
    · refine step_of_move hfine ?_
      simp only [System.move]
      rw [hw]
      exact if_pos hall
    · have hweigh := weigh_set (w := workerWork) hw .selecting
      simp only [workerWork] at hweigh
      simp only [work]
      omega
  · have hlt : result.length < op.events.length := Nat.lt_of_le_of_ne hle hall
    have he := List.getElem?_eq_getElem hlt
    obtain ⟨keys, older, hkeys⟩ := List.exists_cons_of_ne_nil hs.reader
    cases hr : verdict verifySignature keys op.events[result.length] with
    | none =>
      obtain ⟨call, hcall, hsub⟩ := task_events hs (working_task hw)
      have hhash := hhashed call hcall _ (hsub _ (List.mem_of_getElem? he))
      rw [verdict_panics hr] at hhash
      cases hhash
    | some r =>
      refine ⟨.validate w, { s with workers := s.workers.set w (.validating op (result ++ [r])) },
        ?_, ?_⟩
      · refine step_of_move hfine ?_
        simp only [System.move]
        rw [hw, hkeys]
        dsimp only
        rw [he]
        dsimp only
        rw [hr]
      · have hweigh := weigh_set (w := workerWork) hw (.validating op (result ++ [r]))
        simp only [workerWork, List.length_append, List.length_singleton] at hweigh
        simp only [work]
        omega

/-! ## Stop -/

theorem terminate_step (hs : Sound verifySignature s) (hfine : s.panicked = false)
    (hquit : s.quitting = true) {c start : Nat} {events : List Event}
    (hc : s.calls[c]? = some ⟨events, .sending start⟩) :
    ∃ action s', settle verifySignature s action = some s' ∧ work s' < work s := by
  refine ⟨.terminate c, { s with calls := s.calls.set c ⟨events, .returned true⟩ }, ?_, ?_⟩
  · refine step_of_move hfine ?_
    simp only [System.move]
    rw [hc]
    exact if_pos hquit
  · obtain ⟨k, -, rfl, hlt⟩ := hs.calls c _ hc
    have hleft := (lt_batches_length maxBatch_pos).mp hlt
    have hweigh := weigh_set (w := callWork) hc ⟨events, .returned true⟩
    simp only [callWork] at hweigh
    dsimp only at hleft
    simp only [work]
    omega

theorem quit_step (hfine : s.panicked = false) (hquit : s.quitting = true) {w : Nat}
    (hw : s.workers[w]? = some .selecting) :
    ∃ action s', settle verifySignature s action = some s' ∧ work s' < work s := by
  refine ⟨.quit w, { s with workers := s.workers.set w .ended, wg := s.wg - 1 }, ?_, ?_⟩
  · refine step_of_move hfine ?_
    simp only [System.move]
    rw [hw]
    exact if_pos hquit
  · have hweigh := weigh_set (w := workerWork) hw .ended
    simp only [workerWork] at hweigh
    simp only [work]
    omega

def AllReturned (s : System) : Prop := ∀ call ∈ s.calls, ∃ terminated,
    call.pc = .returned terminated

/-- A call at its `select`, or none. -/
theorem sending_or_returned (s : System) :
    (∃ (c start : Nat) (events : List Event), s.calls[c]? = some ⟨events, .sending start⟩) ∨
      AllReturned s := by
  by_cases h : AllReturned s
  · exact .inr h
  · simp only [AllReturned, not_forall, exists_prop] at h
    obtain ⟨⟨events, pc⟩, hmem, hpc⟩ := h
    obtain ⟨c, hc⟩ := List.mem_iff_getElem?.mp hmem
    cases pc with
    | sending start => exact .inl ⟨c, start, events, hc⟩
    | returned terminated => exact absurd ⟨terminated, rfl⟩ hpc

structure Stopping (verifySignature : List UInt8 → Hash → Signature → Bool)
    (s : System) : Prop where
  sound : Sound verifySignature s
  fine : s.panicked = false
  hashed : Hashed s
  quitting : s.quitting = true

theorem stopping_step (h : Stopping verifySignature s)
    (hnot : ¬ (s.phase = .stopped ∧ AllReturned s)) :
    ∃ action s', settle verifySignature s action = some s' ∧ work s' < work s := by
  rcases sending_or_returned s with ⟨c, start, events, hc⟩ | hreturned
  · exact terminate_step h.sound h.fine h.quitting hc
  · have hphase : s.phase = .stopping := by
      have hquit := h.quitting
      rw [System.quitting, Bool.or_eq_true, decide_eq_true_eq, decide_eq_true_eq] at hquit
      exact hquit.resolve_right fun hp => hnot ⟨hp, hreturned⟩
    by_cases hwg : s.wg = 0
    · refine ⟨.wait, { s with phase := .stopped }, step_of_move h.fine
        (if_pos ⟨hphase, hwg⟩), ?_⟩
      simp [work, hphase]
    · have hpos : 0 < s.workers.countP Worker.running := by
        have := h.sound.wg
        omega
      obtain ⟨a, hmem, hrunning⟩ := List.countP_pos_iff.mp hpos
      obtain ⟨w, hw⟩ := List.mem_iff_getElem?.mp hmem
      cases a with
      | selecting => exact quit_step h.fine h.quitting hw
      | validating op result => exact busy_step h.sound h.hashed h.fine hw
      | ended => cases hrunning

theorem settle_stopping {action : Action} (h : Stopping verifySignature s)
    (hstep : settle verifySignature s action = some s') : Stopping verifySignature s' := by
  obtain ⟨hmove, hhashed, -⟩ := settle_moves hstep
  refine ⟨moves_sound h.sound hmove, ?_, hhashed h.hashed, moves_quitting hmove h.quitting⟩
  exact moves_fine h.sound (fun _ => h.fine) hmove (hhashed h.hashed)

/-! ## While the pool runs -/

/-- Nothing is queued or in work. -/
def Idle (s : System) : Prop := s.tasksQ = [] ∧ holdings Worker.task s.workers = []

theorem Idle.tasks (h : Idle s) : s.tasks = s.reports.map Report.op := by
  rw [System.tasks, h.1, h.2, List.append_nil, List.append_nil]

/-- What holds as long as `Stop` is not called. -/
structure Running (verifySignature : List UInt8 → Hash → Signature → Bool)
    (s : System) : Prop where
  sound : Sound verifySignature s
  fine : s.panicked = false
  hashed : Hashed s
  started : s.phase = .started
  workers : 0 < s.workers.length
  none : ∀ a ∈ s.workers, a ≠ .ended

theorem send_step (hs : Sound verifySignature s) (hfine : s.panicked = false)
    (hempty : s.tasksQ = [])
    {c start : Nat} {events : List Event} (hc : s.calls[c]? = some ⟨events, .sending start⟩) :
    ∃ action s', settle verifySignature s action = some s' ∧ work s' < work s := by
  refine ⟨.send c, { s with
    tasksQ := s.tasksQ ++ [nextTask events start c]
    calls := s.calls.set c (Call.loop events (start + maxBatch)) }, ?_, ?_⟩
  · refine step_of_move hfine ?_
    simp only [System.move]
    rw [hc]
    exact if_pos (by rw [hempty]; decide)
  · obtain ⟨k, -, rfl, hlt⟩ := hs.calls c _ hc
    have hleft := (lt_batches_length maxBatch_pos).mp hlt
    have hweigh := weigh_set (w := callWork) hc (Call.loop events (k * maxBatch + maxBatch))
    have hnext : callWork (Call.loop events (k * maxBatch + maxBatch)) ≤
        8 * (events.length - (k * maxBatch + maxBatch)) := by
      rw [callWork, Call.loop]
      dsimp only
      split
      · next heq =>
        split at heq
        · cases heq
          exact Nat.le_refl _
        · cases heq
      · exact Nat.zero_le _
    have hbatch : (nextTask events (k * maxBatch) c).events.length ≤
        min maxBatch (events.length - k * maxBatch) := by
      rw [nextTask_eq, batchAt, List.length_take, List.length_drop]
    have hbefore : callWork ⟨events, .sending (k * maxBatch)⟩ = 8 *
      (events.length - k * maxBatch) := rfl
    rw [hbefore] at hweigh
    simp only [work, weigh_append, weigh]
    dsimp only at hleft
    simp only [maxBatch] at *
    omega

theorem receive_step (hfine : s.panicked = false) {w : Nat} {op : TaskData} {rest : List TaskData}
    (hw : s.workers[w]? = some .selecting) (hq : s.tasksQ = op :: rest) :
    ∃ action s', settle verifySignature s action = some s' ∧ work s' < work s := by
  refine ⟨.receive w, { s with workers := s.workers.set w (.validating op []), tasksQ := rest },
    ?_, ?_⟩
  · refine step_of_move hfine ?_
    simp only [System.move]
    rw [hw, hq]
  · have hweigh := weigh_set (w := workerWork) hw (.validating op [])
    simp only [workerWork, List.length_nil] at hweigh
    simp only [work, hq, weigh]
    omega

theorem running_step (h : Running verifySignature s) (hnot : ¬ (AllReturned s ∧ Idle s)) :
    ∃ action s', settle verifySignature s action = some s' ∧ work s' < work s := by
  by_cases hbusy : ∃ (w : Nat) (op : TaskData) (result : List Result),
      s.workers[w]? = some (.validating op result)
  · obtain ⟨w, op, result, hw⟩ := hbusy
    exact busy_step h.sound h.hashed h.fine hw
  · have hselecting : ∀ (w : Nat) (a : Worker), s.workers[w]? = some a → a = .selecting := by
      intro w a hw
      cases a with
      | selecting => rfl
      | validating op result => exact absurd ⟨w, op, result, hw⟩ hbusy
      | ended => exact absurd rfl (h.none _ (List.mem_of_getElem? hw))
    cases hq : s.tasksQ with
    | cons op rest =>
      have hw := List.getElem?_eq_getElem h.workers
      rw [hselecting 0 _ hw] at hw
      exact receive_step h.fine hw hq
    | nil =>
      rcases sending_or_returned s with ⟨c, start, events, hc⟩ | hreturned
      · exact send_step h.sound h.fine hq hc
      · refine absurd ⟨hreturned, hq, ?_⟩ hnot
        refine List.filterMap_eq_nil_iff.mpr fun a hmem => ?_
        obtain ⟨w, hw⟩ := List.mem_iff_getElem?.mp hmem
        rw [hselecting w a hw]
        rfl

/-- A worker ends after `quit` is closed only. -/
theorem moves_ended {action : Action} (hmove : Moves verifySignature s action s')
    (h : .ended ∈ s.workers → s.quitting = true) (hended : .ended ∈ s'.workers) :
    s'.quitting = true := by
  have hset : ∀ {w : Nat} {b : Worker}, b ≠ .ended → .ended ∈ s.workers.set w b →
      s.quitting = true := by
    intro w b hb hmem
    exact h ((List.mem_or_eq_of_mem_set hmem).resolve_right (Ne.symm hb))
  cases hmove with
  | start => cases List.eq_of_mem_replicate hended
  | receive => exact hset (by simp) hended
  | validate => exact hset (by simp) hended
  | report => exact hset (by simp) hended
  | quit _ hquit => exact hquit
  | stop => rfl
  | wait => rfl
  | _ => exact h hended

theorem settle_running {action : Action} (h : Running verifySignature s)
    (hstep : settle verifySignature s action = some s') : Running verifySignature s' := by
  obtain ⟨hmove, hhashed, hstarted, hworkers⟩ := settle_moves hstep
  refine ⟨moves_sound h.sound hmove, moves_fine h.sound (fun _ => h.fine) hmove
    (hhashed h.hashed),
    hhashed h.hashed, hstarted h.started, hworkers ▸ h.workers, ?_⟩
  rintro a hmem rfl
  have hquit := moves_ended hmove (fun hended => absurd rfl (h.none _ hended)) hmem
  simp [System.quitting, hstarted h.started] at hquit

/-! ## Runs -/

section Runs

variable {keys : ValidatorsPubKeys} {l : List Action}

theorem run_fine (h : run (System.step verifySignature) (System.init keys) l = some s)
    (hhashed : Hashed s) : s.panicked = false := by
  have hkeeps := run_keeps (I := fun s => Sound verifySignature s ∧
    (Hashed s → s.panicked = false))
    (fun _ _ _ hs hstep => ⟨moves_sound hs.1 (step_moves hstep),
      moves_fine hs.1 hs.2 (step_moves hstep)⟩)
    ⟨sound_init keys, fun _ => rfl⟩ h
  exact hkeeps.2 hhashed

/-- Once `Stop` is called, it can return and so can every call of `Enqueue`, with what is
there and whatever the interleaving was. -/
theorem stop_can_return (h : run (System.step verifySignature) (System.init keys) l = some s)
    (hhashed : Hashed s) (hquit : s.quitting = true) :
    ∃ more s', run (settle verifySignature) s more = some s' ∧ s'.phase = .stopped ∧
      AllReturned s' := by
  have hprogress : ∀ s, Stopping verifySignature s →
    ¬ (s.phase = .stopped ∧ AllReturned s) →
      ∃ action s', settle verifySignature s action = some s' ∧ Stopping verifySignature s' ∧
        work s' < work s := by
    intro s hs hnot
    obtain ⟨action, s', hstep, hlt⟩ := stopping_step hs hnot
    exact ⟨action, s', hstep, settle_stopping hs hstep, hlt⟩
  obtain ⟨more, s', hrun, -, hend⟩ :=
    run_ends work hprogress ⟨run_sound h, run_fine h hhashed, hhashed, hquit⟩
  exact ⟨more, s', hrun, hend⟩

/-- One batch is being validated, one is queued and one is still to be sent. -/
theorem stop_can_return_busy :
    ∃ s, run (System.step fun _ _ _ => true) (System.init (someKeys 1))
        [.start 1, .enqueue (List.replicate 9 anEvent), .send 0, .receive 0, .send 0, .stop] =
          some s ∧
      ∃ more s', run (settle fun _ _ _ => true) s more = some s' ∧ s'.phase = .stopped ∧
        AllReturned s' := by
  have hend : (run (System.step fun _ _ _ => true) (System.init (someKeys 1))
      [.start 1, .enqueue (List.replicate 9 anEvent), .send 0, .receive 0, .send 0, .stop]).map
        (fun s => (s.quitting, s.calls.all fun call => call.events.all fun e =>
          e.hashToSignCache.isSome)) = some (true, true) := by decide +kernel
  obtain ⟨s, hs, heq⟩ := Option.map_eq_some_iff.mp hend
  obtain ⟨hquit, hall⟩ := Prod.mk.inj heq
  have hhashed : Hashed s := by simpa [Hashed, List.all_eq_true] using hall
  exact ⟨s, hs, stop_can_return hs hhashed hquit⟩

/-- While the pool runs, every call can return and every batch can be reported. -/
theorem all_can_be_reported (h : run (System.step verifySignature) (System.init keys) l = some s)
    (hhashed : Hashed s) (hstarted : s.phase = .started) (hworkers : 0 < s.workers.length) :
    ∃ more s', run (settle verifySignature) s more = some s' ∧ AllReturned s' ∧
      s'.tasks = s'.reports.map Report.op := by
  have hended := run_keeps (I := fun s : System => .ended ∈ s.workers → s.quitting = true)
    (fun _ _ _ hs hstep hended => moves_ended (step_moves hstep) hs hended) (fun h => by cases h) h
  have hrunning : Running verifySignature s := by
    refine ⟨run_sound h, run_fine h hhashed, hhashed, hstarted, hworkers, ?_⟩
    rintro a hmem rfl
    simpa [System.quitting, hstarted] using hended hmem
  have hprogress : ∀ s, Running verifySignature s → ¬ (AllReturned s ∧ Idle s) →
      ∃ action s', settle verifySignature s action = some s' ∧ Running verifySignature s' ∧
        work s' < work s := by
    intro s hs hnot
    obtain ⟨action, s', hstep, hlt⟩ := running_step hs hnot
    exact ⟨action, s', hstep, settle_running hs hstep, hlt⟩
  obtain ⟨more, s', hrun, -, hreturned, hidle⟩ := run_ends work hprogress hrunning
  exact ⟨more, s', hrun, hreturned, hidle.tasks⟩

theorem all_can_be_reported_busy :
    ∃ s, run (System.step fun _ _ _ => true) (System.init (someKeys 1))
        [.start 1, .enqueue (List.replicate 9 anEvent), .send 0, .receive 0, .send 0] = some s ∧
      ∃ more s', run (settle fun _ _ _ => true) s more = some s' ∧ AllReturned s' ∧
        s'.tasks = s'.reports.map Report.op := by
  have hend : (run (System.step fun _ _ _ => true) (System.init (someKeys 1))
      [.start 1, .enqueue (List.replicate 9 anEvent), .send 0, .receive 0, .send 0]).map
        (fun s => (s.phase, s.workers.length, s.calls.all fun call => call.events.all fun e =>
          e.hashToSignCache.isSome)) = some (.started, 1, true) := by decide +kernel
  obtain ⟨s, hs, heq⟩ := Option.map_eq_some_iff.mp hend
  simp only [Prod.mk.injEq] at heq
  obtain ⟨hstarted, hworkers, hall⟩ := heq
  have hhashed : Hashed s := by simpa [Hashed, List.all_eq_true] using hall
  exact ⟨s, hs, all_can_be_reported hs hhashed hstarted (by omega)⟩

end Runs

end MiniOpera.HeavyCheckProgress
