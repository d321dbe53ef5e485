import MiniOpera.HeavyCheck

/-!
# What holds of the heavy check in every interleaving

Every batch that a call of `Enqueue` has sent is in one place: reported, with one worker,
or in the queue (`batches_reported_once`). An event is reported as valid only if its
signature was verified with the key published for its creator and its epoch
(`reports_verified`), also when an epoch is sealed while its batch is validated. After
`Stop` has returned nothing is reported (`stop_silences`).
-/

namespace MiniOpera.HeavyCheckRuns
open GoRuntime InterEvent EventCheck Threads Batching Holdings HeavyCheck

theorem maxBatch_pos : 0 < maxBatch := by decide

theorem nextTask_eq (events : List Event) (start c : Nat) :
    nextTask events start c = ⟨batchAt maxBatch events start, c⟩ := by
  refine congrArg (TaskData.mk · c) ?_
  rw [batchAt]
  split
  · rw [List.drop_take, Nat.add_sub_cancel_left]
  · next hle =>
    rw [List.take_length, List.take_of_length_le]
    rw [List.length_drop]
    omega

/-! ## The invariant -/

/-- The first `k` batches of call `c` are the tasks that carry its number. -/
def Sent (tasks : List TaskData) (c : Nat) (events : List Event) (k : Nat) : Prop :=
  (tasks.filter fun t => t.call = c).Perm
    (((batches maxBatch events).take k).map (TaskData.mk · c))

/-- Where the call is after `k` of `n` batches. -/
def Fits (k n : Nat) : CallPc → Prop
  | .sending start => start = k * maxBatch ∧ k < n
  | .returned false => k = n
  | .returned true => k < n

def CallOk (tasks : List TaskData) (c : Nat) (call : Call) : Prop :=
  ∃ k, Sent tasks c call.events k ∧ Fits k (batches maxBatch call.events).length call.pc

section Judged

variable (verifySignature : List UInt8 → Hash → Signature → Bool)

/-- Each result is the verdict on its event under keys that were published. -/
def Judged (published : List ValidatorsPubKeys) (events : List Event)
    (result : List Result) : Prop :=
  ∀ (i : Nat) (r : Result), result[i]? = some r →
    ∃ e keys, events[i]? = some e ∧ keys ∈ published ∧
      verdict verifySignature keys e = some r

structure Sound (s : System) : Prop where
  calls : ∀ (c : Nat) (call : Call), s.calls[c]? = some call → CallOk s.tasks c call
  known : ∀ t ∈ s.tasks, t.call < s.calls.length
  working : ∀ op result, .validating op result ∈ s.workers →
    result.length ≤ op.events.length ∧ Judged verifySignature s.published op.events result
  reported : ∀ r ∈ s.reports, r.result.length = r.op.events.length ∧
    Judged verifySignature s.published r.op.events r.result
  reader : s.published ≠ []
  wg : s.wg = s.workers.countP Worker.running
  unstarted : s.phase = .created → s.workers = []
  stopped : s.phase = .stopped → s.wg = 0

variable {verifySignature}

theorem Judged.mono {published published' : List ValidatorsPubKeys} {events : List Event}
    {result : List Result} (h : Judged verifySignature published events result)
    (hsub : ∀ keys ∈ published, keys ∈ published') :
    Judged verifySignature published' events result := by
  intro i r hr
  obtain ⟨e, keys, he, hkeys, hverdict⟩ := h i r hr
  exact ⟨e, keys, he, hsub keys hkeys, hverdict⟩

theorem Judged.snoc {published : List ValidatorsPubKeys} {events : List Event}
    {result : List Result}
    (h : Judged verifySignature published events result) {e : Event} {keys : ValidatorsPubKeys}
    {r : Result} (he : events[result.length]? = some e) (hkeys : keys ∈ published)
    (hr : verdict verifySignature keys e = some r) :
    Judged verifySignature published events (result ++ [r]) := by
  intro i r' hi
  rcases snoc_cases hi with ⟨rfl, rfl⟩ | ⟨-, hi⟩
  · exact ⟨e, keys, he, hkeys, hr⟩
  · exact h i r' hi

end Judged

/-! ## Calls of Enqueue -/

section Calls

variable {tasks tasks' : List TaskData} {c k : Nat} {call : Call} {events : List Event}

theorem CallOk.perm (h : CallOk tasks c call) (hperm : tasks'.Perm tasks) :
    CallOk tasks' c call := by
  obtain ⟨k, hsent, hfits⟩ := h
  exact ⟨k, (hperm.filter _).trans hsent, hfits⟩

/-- Another call sends a task. -/
theorem CallOk.other {t : TaskData} (h : CallOk tasks c call) (ht : t.call ≠ c) :
    CallOk (tasks ++ [t]) c call := by
  obtain ⟨k, hsent, hfits⟩ := h
  refine ⟨k, ?_, hfits⟩
  rw [Sent, List.filter_append, List.filter_singleton, decide_eq_false ht,
    cond_false, List.append_nil]
  exact hsent

/-- After `k` batches the loop variable is `k * maxBatch`. -/
theorem fits_loop (hk : k ≤ (batches maxBatch events).length) :
    Fits k (batches maxBatch events).length (Call.loop events (k * maxBatch)).pc := by
  have hiff := lt_batches_length (k := k) (l := events) maxBatch_pos
  rw [Call.loop]
  dsimp only
  split
  · next hlt => exact ⟨rfl, hiff.mpr hlt⟩
  · next hge => exact Nat.le_antisymm hk (Nat.le_of_not_lt fun hlt => hge (hiff.mp hlt))

theorem CallOk.send {start : Nat} (h : CallOk tasks c ⟨events, .sending start⟩) :
    CallOk (tasks ++ [nextTask events start c]) c (Call.loop events (start + maxBatch)) := by
  obtain ⟨k, hsent, rfl, hlt⟩ := h
  refine ⟨k + 1, ?_, ?_⟩
  · have hnext := batches_take_succ maxBatch_pos ((lt_batches_length maxBatch_pos).mp hlt)
    show Sent _ c events (k + 1)
    rw [Sent, hnext, List.map_append, List.filter_append, nextTask_eq]
    refine List.Perm.append hsent ?_
    simp
  · have hloop := fits_loop hlt
    rwa [Nat.succ_mul] at hloop

theorem CallOk.terminate {start : Nat} (h : CallOk tasks c ⟨events, .sending start⟩) :
    CallOk tasks c ⟨events, .returned true⟩ := by
  obtain ⟨k, hsent, -, hlt⟩ := h
  exact ⟨k, hsent, hlt⟩

/-- A new call has sent nothing. -/
theorem CallOk.enqueue (h : ∀ t ∈ tasks, t.call < c) : CallOk tasks c (Call.loop events 0) := by
  refine ⟨0, ?_, ?_⟩
  · have hnone : tasks.filter (fun t => t.call = c) = [] := by
      refine List.filter_eq_nil_iff.mpr fun t ht => ?_
      have := h t ht
      simp only [decide_eq_true_eq]
      omega
    rw [Sent, hnone]
    exact .refl _
  · have hloop := fits_loop (Nat.zero_le (batches maxBatch events).length)
    rwa [Nat.zero_mul] at hloop

end Calls

/-! ## Steps -/

section Steps

variable {verifySignature : List UInt8 → Hash → Signature → Bool}
  {s s' : System} {action : Action}
  {w : Nat} {op : TaskData} {result : List Result}

theorem receive_perm {rest : List TaskData} (hw : s.workers[w]? = some .selecting)
    (hq : s.tasksQ = op :: rest) :
    System.tasks { s with workers := s.workers.set w (.validating op []), tasksQ := rest } |>.Perm
      s.tasks := by
  have htake := holdings_take (f := Worker.task) (b := .validating op []) hw rfl rfl
  show ((s.reports.map Report.op ++ holdings Worker.task _) ++ rest).Perm
    ((s.reports.map Report.op ++ holdings Worker.task s.workers) ++ s.tasksQ)
  rw [hq]
  exact ((htake.append_left _).append_right _).trans
    ((List.perm_middle.append_right _).trans List.perm_middle.symm)

theorem report_perm (hw : s.workers[w]? = some (.validating op result)) :
    System.tasks { s with
        workers := s.workers.set w .selecting
        reports := s.reports ++ [⟨op, result⟩] }
      |>.Perm s.tasks := by
  have hdrop := holdings_drop (f := Worker.task) (b := .selecting) hw rfl rfl
  have hreports : (s.reports ++ [Report.mk op result]).map Report.op =
    s.reports.map Report.op ++ [op] :=
    List.map_append
  show ((_ ++ holdings Worker.task (s.workers.set w .selecting)) ++ s.tasksQ).Perm
    ((s.reports.map Report.op ++ holdings Worker.task s.workers) ++ s.tasksQ)
  rw [hreports, List.append_assoc (s.reports.map Report.op), List.singleton_append]
  exact (hdrop.symm.append_left _).append_right _

/-- A worker goes on with what it has. -/
theorem keep_perm {a b : Worker} (hw : s.workers[w]? = some a) (hab : b.task = a.task) (wg : Nat) :
    System.tasks { s with workers := s.workers.set w b, wg := wg } |>.Perm s.tasks :=
  ((holdings_keep hw hab).append_left _).append_right _

/-- The tasks stay where they are or change their place. -/
theorem Sound.place (h : Sound verifySignature s) {workers : List Worker} {wg : Nat}
    {tasksQ : List TaskData} {reports : List Report} {t : System}
    (ht : t = { s with workers := workers, wg := wg, tasksQ := tasksQ, reports := reports })
    (hperm : t.tasks.Perm s.tasks)
    (hworking : ∀ op result, .validating op result ∈ workers →
      result.length ≤ op.events.length ∧ Judged verifySignature s.published op.events result)
    (hreported : ∀ r ∈ reports, r.result.length = r.op.events.length ∧
      Judged verifySignature s.published r.op.events r.result)
    (hwg : wg = workers.countP Worker.running) (hunstarted : s.phase = .created → workers = [])
    (hstopped : s.phase = .stopped → wg = 0) : Sound verifySignature t := by
  have hcalls : ∀ (c : Nat) (call : Call), s.calls[c]? = some call → CallOk t.tasks c call :=
    fun c call hc => (h.calls c call hc).perm hperm
  have hknown : ∀ task ∈ t.tasks, task.call < s.calls.length :=
    fun task htask => h.known task (hperm.mem_iff.mp htask)
  subst ht
  exact ⟨hcalls, hknown, hworking, hreported, h.reader, hwg, hunstarted, hstopped⟩

/-- The workers after one of them has moved. -/
theorem Sound.working_set (h : Sound verifySignature s) {b : Worker}
    (hb : ∀ op result, b = .validating op result →
      result.length ≤ op.events.length ∧ Judged verifySignature s.published op.events result) :
    ∀ op result, .validating op result ∈ s.workers.set w b →
      result.length ≤ op.events.length ∧
        Judged verifySignature s.published op.events result := by
  intro op result hmem
  rcases List.mem_or_eq_of_mem_set hmem with hmem | heq
  · exact h.working op result hmem
  · exact hb op result heq.symm

theorem created_set (h : Sound verifySignature s) {b : Worker} (hphase : s.phase = .created) :
    s.workers.set w b = [] := by
  rw [h.unstarted hphase]
  rfl

theorem countP_set {a b : Worker} (hw : s.workers[w]? = some a) :
    (s.workers.set w b).countP Worker.running + a.running.toNat =
      s.workers.countP Worker.running + b.running.toNat := by
  rw [List.set_eq_modify]
  exact countP_modify _ hw

/-- A worker moves that goes on running. -/
theorem Sound.move (h : Sound verifySignature s) {a b : Worker} {tasksQ : List TaskData}
    {reports : List Report} {t : System} (hw : s.workers[w]? = some a)
    (ha : a.running = true) (hb : b.running = true)
    (ht : t = { s with workers := s.workers.set w b, tasksQ := tasksQ, reports := reports })
    (hperm : t.tasks.Perm s.tasks)
    (hworking : ∀ op result, b = .validating op result →
      result.length ≤ op.events.length ∧ Judged verifySignature s.published op.events result)
    (hreported : ∀ r ∈ reports, r.result.length = r.op.events.length ∧
      Judged verifySignature s.published r.op.events r.result) : Sound verifySignature t := by
  refine h.place ht hperm (h.working_set hworking) hreported ?_ (created_set h) h.stopped
  have hcount := countP_set (b := b) hw
  rw [ha, hb] at hcount
  have := h.wg
  omega

theorem Sound.enqueue (h : Sound verifySignature s) (events : List Event) :
    Sound verifySignature { s with calls := s.calls ++ [Call.loop events 0] } where
  calls c call hc := by
    rcases snoc_cases hc with ⟨rfl, rfl⟩ | ⟨-, hc⟩
    · exact CallOk.enqueue h.known
    · exact h.calls c call hc
  known t ht := by
    have := h.known t ht
    rw [List.length_append]
    omega
  working := h.working
  reported := h.reported
  reader := h.reader
  wg := h.wg
  unstarted := h.unstarted
  stopped := h.stopped

/-- One of the calls moves, and may have sent a task. -/
theorem Sound.call (h : Sound verifySignature s) {c : Nat} {old new : Call} {more : List TaskData}
    (hc : s.calls[c]? = some old) (hmore : ∀ t ∈ more, t.call = c)
    (hnew : CallOk (s.tasks ++ more) c new)
    (hothers : ∀ d call, d ≠ c → CallOk s.tasks d call → CallOk (s.tasks ++ more) d call) :
    Sound verifySignature { s with tasksQ := s.tasksQ ++ more, calls := s.calls.set c new } := by
  have htasks : System.tasks { s with tasksQ := s.tasksQ ++ more, calls := s.calls.set c new } =
      s.tasks ++ more := (List.append_assoc _ _ _).symm
  obtain ⟨hlt, -⟩ := List.getElem?_eq_some_iff.mp hc
  refine ⟨fun d call hd => ?_, fun t ht => ?_, h.working, h.reported, h.reader, h.wg, h.unstarted,
    h.stopped⟩
  · rw [htasks]
    by_cases heq : d = c
    · subst heq
      rw [List.getElem?_set_self hlt] at hd
      cases hd
      exact hnew
    · rw [List.getElem?_set_ne (Ne.symm heq)] at hd
      exact hothers d call heq (h.calls d call hd)
  · rw [htasks, List.mem_append] at ht
    rw [List.length_set]
    exact ht.elim (h.known t) fun ht => hmore t ht ▸ hlt

theorem Sound.publish (h : Sound verifySignature s) (keys : ValidatorsPubKeys) :
    Sound verifySignature { s with published := keys :: s.published } where
  calls := h.calls
  known := h.known
  working op result hmem :=
    (h.working op result hmem).imp_right (·.mono fun _ => List.mem_cons_of_mem _)
  reported r hr := (h.reported r hr).imp_right (·.mono fun _ => List.mem_cons_of_mem _)
  reader := List.cons_ne_nil _ _
  wg := h.wg
  unstarted := h.unstarted
  stopped := h.stopped

theorem moves_sound (h : Sound verifySignature s) (hmove : Moves verifySignature s action s') :
    Sound verifySignature s' := by
  cases hmove with
  | @start n hphase =>
    have hnone : holdings Worker.task (List.replicate n .selecting) =
        holdings Worker.task s.workers := by
      rw [h.unstarted hphase, holdings, List.filterMap_replicate]
      rfl
    have htasks : System.tasks { s with
        phase := .started, workers := List.replicate n .selecting, wg := n } = s.tasks := by
      show _ ++ holdings _ _ ++ _ = _
      rw [hnone]
      rfl
    refine ⟨htasks ▸ h.calls, htasks ▸ h.known, fun op result hmem =>
      ?_, h.reported, h.reader, ?_,
      fun hp => (by cases hp), fun hp => (by cases hp)⟩
    · cases List.eq_of_mem_replicate hmem
    · exact (List.countP_replicate.trans (if_pos rfl)).symm
  | enqueue => exact h.enqueue _
  | @send c start events hc =>
    refine h.call hc (fun t ht => ?_) (h.calls c _ hc).send fun d call hne hok => hok.other ?_
    · rw [List.mem_singleton.mp ht]
      rfl
    · exact Ne.symm hne
  | @terminate c start events hc =>
    have hcall := h.call hc (fun t (ht : t ∈ []) => by cases ht)
      (by rw [List.append_nil]; exact (h.calls c _ hc).terminate)
      (fun d call _ hok => by rwa [List.append_nil])
    rwa [List.append_nil] at hcall
  | receive hw hq =>
    refine h.move hw rfl rfl rfl (receive_perm hw hq) (fun op result heq => ?_) h.reported
    cases heq
    exact ⟨Nat.zero_le _, fun i r hr => by cases hr⟩
  | @validate w op result keys older e r hw hkeys he hr =>
    refine h.move hw rfl rfl rfl (keep_perm (b := .validating op (result ++ [r])) hw rfl s.wg)
      (fun op' result' heq => ?_) h.reported
    cases heq
    obtain ⟨-, hjudged⟩ := h.working op result (List.mem_of_getElem? hw)
    refine ⟨?_, hjudged.snoc he (hkeys ▸ List.mem_cons_self) hr⟩
    rw [List.length_append]
    exact (List.getElem?_eq_some_iff.mp he).1
  | panic =>
    exact ⟨h.calls, h.known, h.working, h.reported, h.reader, h.wg, h.unstarted, h.stopped⟩
  | @report w op result hw hall =>
    refine h.move hw rfl rfl rfl (report_perm hw) (fun op result heq => by cases heq) fun r hr => ?_
    rcases List.mem_append.mp hr with hr | hr
    · exact h.reported r hr
    · cases List.mem_singleton.mp hr
      exact ⟨hall, (h.working op result (List.mem_of_getElem? hw)).2⟩
  | @quit w hw hquit =>
    have hcount := countP_set (b := .ended) hw
    have hwg := h.wg
    refine h.place rfl (keep_perm (b := .ended) hw rfl (s.wg - 1))
      (h.working_set fun op result heq => by cases heq)
      h.reported ?_ (created_set h) fun hphase => ?_
    · simp only [Worker.running, Bool.toNat_true, Bool.toNat_false] at hcount
      omega
    · have := h.stopped hphase
      omega
  | publish => exact h.publish _
  | stop hphase =>
    exact ⟨h.calls, h.known, h.working, h.reported, h.reader, h.wg, fun hp => (by cases hp),
      fun hp => (by cases hp)⟩
  | wait hphase hzero =>
    exact ⟨h.calls, h.known, h.working, h.reported, h.reader, h.wg, fun hp => (by cases hp),
      fun _ => hzero⟩

theorem sound_init (keys : ValidatorsPubKeys) : Sound verifySignature (System.init keys) where
  calls c call hc := by cases hc
  known t ht := by cases ht
  working op result hmem := by cases hmem
  reported r hr := by cases hr
  reader := List.cons_ne_nil _ _
  wg := rfl
  unstarted _ := rfl
  stopped hp := by cases hp

/-- `quit` stays closed. -/
theorem moves_quitting (hmove : Moves verifySignature s action s') (h : s.quitting = true) :
    s'.quitting = true := by
  cases hmove with
  | start hphase => simp [System.quitting, hphase] at h
  | stop => rfl
  | wait => rfl
  | _ => exact h

/-- `Enqueue` returns `errTerminated` after `quit` is closed only. -/
theorem moves_terminated (hmove : Moves verifySignature s action s')
    (h : ∀ (c : Nat) (call : Call), s.calls[c]? = some call → call.pc = .returned true →
      s.quitting = true) {c : Nat} {call : Call} (hc : s'.calls[c]? = some call)
    (hpc : call.pc = .returned true) : s'.quitting = true := by
  have hloop : ∀ {events : List Event} {start : Nat},
      (Call.loop events start).pc ≠ .returned true := by
    intro events start hloop
    rw [Call.loop] at hloop
    dsimp only at hloop
    split at hloop <;> cases hloop
  have hbefore : s.quitting = true := by
    cases hmove with
    | enqueue =>
      rcases snoc_cases hc with ⟨-, rfl⟩ | ⟨-, hc⟩
      · exact absurd hpc hloop
      · exact h c call hc hpc
    | @send d start events hd =>
      obtain ⟨hlt, -⟩ := List.getElem?_eq_some_iff.mp hd
      by_cases heq : c = d
      · subst heq
        have hc : (s.calls.set c _)[c]? = some call := hc
        rw [List.getElem?_set_self hlt] at hc
        cases hc
        exact absurd hpc hloop
      · have hc : (s.calls.set d _)[c]? = some call := hc
        rw [List.getElem?_set_ne (Ne.symm heq)] at hc
        exact h c call hc hpc
    | terminate _ hquit => exact hquit
    | _ => exact h c call hc hpc
  exact moves_quitting hmove hbefore

end Steps

/-! ## Runs -/

section Runs

variable {verifySignature : List UInt8 → Hash → Signature → Bool} {keys : ValidatorsPubKeys}
  {s s' : System} {l : List Action}

theorem run_sound (h : run (System.step verifySignature) (System.init keys) l = some s) :
    Sound verifySignature s :=
  run_keeps (fun _ _ _ hs hstep => moves_sound hs (step_moves hstep)) (sound_init keys) h

/-- In every interleaving, what a call of `Enqueue` has sent are the first batches of its
events, each of them reported, with a worker or queued, and nowhere twice. The call returns
nil when all are sent, and `errTerminated` after `Stop` was called only. -/
theorem batches_reported_once (h : run (System.step verifySignature) (System.init keys) l = some s)
    {c : Nat} {call : Call} (hc : s.calls[c]? = some call) :
    (batches maxBatch call.events).flatten = call.events ∧
    (∀ b ∈ batches maxBatch call.events, b ≠ [] ∧ b.length ≤ maxBatch) ∧
    ∃ k, (s.tasks.filter fun t => t.call = c).Perm
        (((batches maxBatch call.events).take k).map (TaskData.mk · c)) ∧
      (call.pc = .returned false → k = (batches maxBatch call.events).length) ∧
      (call.pc = .returned true → k < (batches maxBatch call.events).length ∧
        s.quitting = true) := by
  have hterminated := run_keeps (I := fun s : System => ∀ (c : Nat) (call : Call),
      s.calls[c]? = some call → call.pc = .returned true → s.quitting = true)
    (fun _ _ _ hs hstep _ _ hc hpc => moves_terminated (step_moves hstep) hs hc hpc)
    (fun c call hc => by cases hc) h
  refine ⟨batches_flatten maxBatch_pos _, fun b => mem_batches maxBatch_pos, ?_⟩
  obtain ⟨k, hsent, hfits⟩ := (run_sound h).calls c call hc
  refine ⟨k, hsent, fun hpc => ?_, fun hpc => ?_⟩
  · rw [hpc] at hfits
    exact hfits
  · refine ⟨?_, hterminated c call hc hpc⟩
    rw [hpc] at hfits
    exact hfits

def anEvent : Event := ⟨⟨1, 1, 0, false, 1, [], 1, 1, Bytes.zero 32⟩,
    ⟨0, [], Bytes.zero 64, 0, some (Bytes.zero 32)⟩⟩

def someKeys (epoch : Nat) : ValidatorsPubKeys := newEpochPubKeys epoch [⟨1, [], 1⟩]

/-- Five events in two batches; the epoch is sealed while the first one is validated. -/
def sealedMeanwhile : List Action :=
  [.start 2, .enqueue (List.replicate 5 anEvent), .send 0, .receive 1, .send 0, .receive 0,
    .validate 1, .validate 1, .publish (someKeys 2), .validate 1, .validate 0,
      .report 0, .validate 1,
    .report 1]

theorem batches_reported_once_sealed :
    ∃ s call, run (System.step fun _ _ _ => true)
    (System.init (someKeys 1)) sealedMeanwhile = some s ∧
      s.calls[0]? = some call ∧ (batches maxBatch call.events).flatten = call.events := by
  have hcall : ((run (System.step fun _ _ _ => true)
    (System.init (someKeys 1)) sealedMeanwhile).bind
      fun s => s.calls[0]?).isSome = true := by decide +kernel
  obtain ⟨call, heq⟩ := Option.isSome_iff_exists.mp hcall
  obtain ⟨s, hs, hc⟩ := Option.bind_eq_some_iff.mp heq
  exact ⟨s, call, hs, hc, (batches_reported_once hs hc).1⟩

theorem heavyCheck_verified {keys : ValidatorsPubKeys} {e : Event}
    (h : heavyCheck verifySignature keys e = .ok ()) :
    keys.epoch = e.epoch.toNat ∧ ∃ pubKey hash, keys.pubKeys e.creator = some pubKey ∧
      e.hashToSignCache = some hash ∧ verifySignature pubKey hash e.sig = true := by
  have hepoch := heavyCheck_epoch verifySignature h
  refine ⟨hepoch, ?_⟩
  cases hkey : keys.pubKeys e.creator with
  | none =>
    simp only [heavyCheck, hepoch, ne_eq, not_true_eq_false, if_false, hkey] at h
    cases h
  | some pubKey =>
    cases hhash : e.hashToSignCache with
    | none =>
      simp only [heavyCheck, hepoch, ne_eq, not_true_eq_false, if_false, hkey, Event.hashToSign,
        hhash] at h
      cases h
    | some hash =>
      exact ⟨pubKey, hash, rfl, rfl, (heavyCheck_iff verifySignature hepoch hkey hhash).mp h⟩

/-- In every interleaving, a batch is reported with one result for each event, and an event
is reported as valid only if its signature was verified with the key that was published
for its creator in the event's own epoch. -/
theorem reports_verified (h : run (System.step verifySignature) (System.init keys) l = some s)
    {r : Report} (hr : r ∈ s.reports) :
    r.result.length = r.op.events.length ∧
    ∀ (i : Nat) (e : Event), r.op.events[i]? = some e → r.result[i]? = some none →
      ∃ keys ∈ s.published, keys.epoch = e.epoch.toNat ∧
        ∃ pubKey hash, keys.pubKeys e.creator = some pubKey ∧
          e.hashToSignCache = some hash ∧ verifySignature pubKey hash e.sig = true := by
  obtain ⟨hlength, hjudged⟩ := (run_sound h).reported r hr
  refine ⟨hlength, fun i e he hnone => ?_⟩
  obtain ⟨e', keys', he', hkeys', hverdict⟩ := hjudged i none hnone
  rw [he] at he'
  cases he'
  exact ⟨keys', hkeys', heavyCheck_verified (verdict_valid verifySignature hverdict)⟩

/-- The batch that was validated first is reported second, its last two events with
the keys of the next epoch. -/
theorem reports_verified_sealed :
    ∃ s r, run (System.step fun _ _ _ => true)
    (System.init (someKeys 1)) sealedMeanwhile = some s ∧
      s.reports[1]? = some r ∧ r.result = [none, none, some .notRelevant, some .notRelevant] ∧
      r.result.length = r.op.events.length := by
  have hresult :
    ((run (System.step fun _ _ _ => true) (System.init (someKeys 1)) sealedMeanwhile).bind
      fun s => s.reports[1]?).map Report.result =
        some [none, none, some .notRelevant, some .notRelevant] := by decide +kernel
  obtain ⟨r, hr, hresult⟩ := Option.map_eq_some_iff.mp hresult
  obtain ⟨s, hs, hget⟩ := Option.bind_eq_some_iff.mp hr
  exact ⟨s, r, hs, hget, hresult, (reports_verified hs (List.mem_of_getElem? hget)).1⟩

theorem moves_stopped {action : Action} (hs : Sound verifySignature s) (hphase : s.phase = .stopped)
    (hmove : Moves verifySignature s action s') : s'.phase = .stopped ∧
      s'.reports = s.reports := by
  have hidle : ∀ {w : Nat} {a : Worker}, s.workers[w]? = some a → a.running = false := by
    intro w a hw
    refine Bool.eq_false_iff.mpr fun hrunning => ?_
    have hpos : 0 < s.workers.countP Worker.running :=
      List.countP_pos_iff.mpr ⟨a, List.mem_of_getElem? hw, hrunning⟩
    have := hs.stopped hphase
    have := hs.wg
    omega
  have hother : ∀ phase, phase ≠ .stopped → s.phase ≠ phase := by
    rintro _ hne rfl
    exact hne hphase
  cases hmove with
  | start h => exact absurd h (hother _ (by simp))
  | report hw => cases hidle hw
  | stop h => exact absurd h (hother _ (by simp))
  | wait h => exact absurd h (hother _ (by simp))
  | _ => exact ⟨hphase, rfl⟩

/-- `onValidated` is not called after `Stop` has returned. -/
theorem stop_silences (h : run (System.step verifySignature) (System.init keys) l = some s)
    (hphase : s.phase = .stopped) {more : List Action}
    (hmore : run (System.step verifySignature) s more = some s') :
    s'.phase = .stopped ∧ s'.reports = s.reports := by
  have hkeeps := run_keeps (I := fun t => Sound verifySignature t ∧ t.phase = .stopped ∧
      t.reports = s.reports) ?_ ⟨run_sound h, hphase, rfl⟩ hmore
  · exact hkeeps.2
  · rintro t action t' ⟨ht, hphase', hreports⟩ hstep
    obtain ⟨hphase'', hreports'⟩ := moves_stopped ht hphase' (step_moves hstep)
    exact ⟨moves_sound ht (step_moves hstep), hphase'', hreports'.trans hreports⟩

/-- A batch that is still queued when `Stop` returns is never reported. -/
theorem stop_silences_queued :
    ∃ s s', run (System.step fun _ _ _ => true) (System.init (someKeys 1))
        [.start 1, .enqueue [anEvent], .send 0, .stop, .quit 0, .wait] = some s ∧
      run (System.step fun _ _ _ => true) s [.enqueue [anEvent], .send 1, .publish (someKeys 2)] =
        some s' ∧
      s'.reports = s.reports := by
  have hphase : (run (System.step fun _ _ _ => true) (System.init (someKeys 1))
      [.start 1, .enqueue [anEvent], .send 0, .stop, .quit 0, .wait]).map System.phase =
        some .stopped := by decide +kernel
  have hmore : ((run (System.step fun _ _ _ => true) (System.init (someKeys 1))
      [.start 1, .enqueue [anEvent], .send 0, .stop, .quit 0, .wait]).bind fun s =>
        run (System.step fun _ _ _ => true) s
          [.enqueue [anEvent], .send 1, .publish (someKeys 2)]).isSome = true := by decide +kernel
  obtain ⟨s, hs, hstopped⟩ := Option.map_eq_some_iff.mp hphase
  rw [hs] at hmore
  obtain ⟨s', hs'⟩ := Option.isSome_iff_exists.mp hmore
  exact ⟨s, s', hs, hs', (stop_silences hs hstopped hs').2⟩

end Runs

end MiniOpera.HeavyCheckRuns
