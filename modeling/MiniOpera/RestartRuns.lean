import MiniOpera.Restart

/-!
# What survives a crash

Over every run of a machine, with any number of crashes, panics and restarts:

* `restart_restores`: what was flushed stays. A restart always succeeds, and brings the
  service up with the tables that the last flush has written and nothing else; the running
  service has the saved events first.
* `sealed_epochs_survive`: as long as no flush fails, only events of the current epoch can be
  lost, and none after `Stop`; a restart is in the epoch in which the service was, or was when
  the call in progress began.
* `number_reused_iff`: the emitter takes a sequence number for the second time exactly when an
  event of its validator was lost and has not come back from a peer.
-/

namespace MiniOpera.Restart
open GoRuntime InterEvent EventCheck GossipStore Consensus Service Genesis Ledger Refinement Runs
  Emitting BlockCounters CacheTransparency

variable {w : World} {v : ValidatorID} {m m' : Machine} {a : Action} {s s' : Sys} {l l' : State}
  {P : Machine → Action → Prop}

/-! ## What is saved -/

theorem Grows.log {own : ValidatorID → Prop} (h : Grows own l l') : l.log <+: l'.log := by
  rcases h with rfl | ⟨e, newEpoch, rfl, -⟩
  · exact List.prefix_rfl
  · rw [connect_log]
    exact List.prefix_append _ _

theorem new_kept : Kept w .new := ⟨.inl ⟨rfl, rfl⟩, off_service rfl⟩

theorem Kept.die (h : Kept w m) : Kept w m.die := ⟨h.disk, off_service rfl⟩

theorem Served.kept (h : Served w a m s s' l l') (hkept : Kept w m) :
    ∃ vs, Running w s' l' vs ∧ m.saved <+: l'.log := by
  obtain ⟨vs, hrun⟩ := h.before
  obtain ⟨vs', hrun'⟩ := h.after
  obtain ⟨l0, _, hrun0, hsaved⟩ := hkept.service s h.service
  rw [hrun0.log, ← hrun.log] at hsaved
  exact ⟨vs', hrun', hsaved.trans h.grows.log⟩

theorem Moves.kept (h : Moves w a m m') (hkept : Kept w m) :
    Kept w m' ∧ m.saved <+: m'.saved := by
  cases h with
  | same => exact ⟨hkept, List.prefix_rfl⟩
  | dies => exact ⟨hkept.die, List.prefix_rfl⟩
  | boots h _ =>
    refine ⟨⟨.inr ⟨_, _, h.image, h.log⟩, ?_⟩, List.prefix_rfl⟩
    intro t ht
    cases ht
    exact ⟨_, _, h.running, [], (List.append_nil _).trans h.log.symm⟩
  | reads h _ =>
    refine ⟨⟨hkept.disk, ?_⟩, List.prefix_rfl⟩
    intro t ht
    cases ht
    exact ⟨_, h.kept hkept⟩
  | calls h _ _ _ _ =>
    refine ⟨⟨hkept.disk, ?_⟩, List.prefix_rfl⟩
    intro t ht
    cases ht
    exact ⟨_, h.kept hkept⟩
  | skips _ _ => exact ⟨⟨hkept.disk, hkept.service⟩, List.prefix_rfl⟩
  | @flushes s hs =>
    obtain ⟨l, vs, hrun, hsaved⟩ := hkept.service s hs
    refine ⟨⟨.inr ⟨l, vs, hrun.image, hrun.log⟩, ?_⟩, ?_⟩
    · intro t ht
      cases hs.symm.trans ht
      exact ⟨l, vs, hrun, [], (List.append_nil _).trans hrun.log.symm⟩
    · show m.saved <+: s.connected
      rw [← hrun.log]
      exact hsaved

theorem run_kept (hmax : 1 ≤ w.net.maxEpochBlocks) (hkept : Kept w m)
    (h : Relation.ReflTransGen (Step w P) m m') : Kept w m' ∧ m.saved <+: m'.saved := by
  induction h with
  | refl => exact ⟨hkept, List.prefix_rfl⟩
  | tail _ hstep ih =>
    obtain ⟨hkept1, hsaved⟩ := ih
    cases hstep with
    | act a hdecoded _ =>
      obtain ⟨hkept2, hsaved2⟩ := (step_moves hmax hkept1 hdecoded).kept hkept1
      exact ⟨hkept2, hsaved.trans hsaved2⟩

theorem Reachable.kept (hmax : 1 ≤ w.net.maxEpochBlocks) (h : Reachable w P m) : Kept w m :=
  (run_kept hmax new_kept h).1

/-- **The rule for runs**: what holds at first and is kept by every step. -/
theorem Reachable.keeps (hmax : 1 ≤ w.net.maxEpochBlocks) {I : Machine → Prop} (hnew : I .new)
    (hstep : ∀ {m m' : Machine} {a : Action}, Kept w m → Moves w a m m' →
      P m a → I m → I m')
    (h : Reachable w P m) : I m := by
  induction h with
  | refl => exact hnew
  | tail hrun hlast ih =>
    have hkept := Reachable.kept hmax hrun
    cases hlast with
    | act a hdecoded hP => exact hstep hkept (step_moves hmax hkept hdecoded) hP ih

/-! ## What is on the disk -/

/-- The disk is new, or has the genesis, or what a process had in its tables earlier in the
run when it flushed them. -/
def Flushed (w : World) (P : Machine → Action → Prop) (m : Machine) : Prop :=
  m.saved = [] ∧ (m.disk = closed .empty ∨ m.disk = genesisData w) ∨
    ∃ m₀ s, Reachable w P m₀ ∧ Relation.ReflTransGen (Step w P) m₀ m ∧
      m₀.service = some s ∧
      m.disk = closed s.node.store.data ∧ m.saved = s.connected

theorem Moves.disk_cases (h : Moves w a m m') :
    (m'.disk = m.disk ∧ m'.saved = m.saved) ∨ (m'.disk = genesisData w ∧ m'.saved = []) ∨
      ∃ s, m'.service = some s ∧ m'.disk = closed s.node.store.data ∧
        m'.saved = s.connected := by
  cases h with
  | same | dies => exact .inl ⟨rfl, rfl⟩
  | reads _ _ | calls _ _ _ _ _ | skips _ _ => exact .inl ⟨rfl, rfl⟩
  | boots h _ =>
    rcases h.disk with hsame | ⟨-, hsaved, hgenesis⟩
    · exact .inl ⟨hsame, rfl⟩
    · exact .inr (.inl ⟨hgenesis, hsaved⟩)
  | flushes hs => exact .inr (.inr ⟨_, hs, rfl, rfl⟩)

theorem Reachable.flushed (hmax : 1 ≤ w.net.maxEpochBlocks) (h : Reachable w P m) :
    Flushed w P m := by
  induction h with
  | refl => exact .inl ⟨rfl, .inl rfl⟩
  | tail hrun hstep ih =>
    have hnext : Reachable w P _ := hrun.tail hstep
    have hlast := hstep
    cases hstep with
    | act a hdecoded hP =>
      rcases (step_moves hmax (Reachable.kept hmax hrun) hdecoded).disk_cases with
        ⟨hdisk, hsaved⟩ | ⟨hdisk, hsaved⟩ | ⟨s, hs, hdisk, hsaved⟩
      · unfold Flushed
        rw [hdisk, hsaved]
        refine ih.imp_right ?_
        rintro ⟨m₀, s, h₀, hrest, hs⟩
        exact ⟨m₀, s, h₀, hrest.tail hlast, hs⟩
      · exact .inl ⟨hsaved, .inr hdisk⟩
      · exact .inr ⟨_, s, hnext, .refl, hs, hdisk, hsaved⟩

theorem step_boot (hoff : m.service = none) (cfg : CacheConfig) (em : Emitter) :
    step w m (.boot cfg em none) = m.boot w cfg em none := by
  unfold step
  rw [hoff]

/-- A restart after a crash. -/
theorem Kept.restart (hmax : 1 ≤ w.net.maxEpochBlocks) (h : Kept w m) (cfg : CacheConfig)
    (em : Emitter) :
    ∃ d n l vs, (run w m [.crash, .boot cfg em none]).service = some ⟨n, m.saved⟩ ∧
      Booted w m em d n l vs := by
  show ∃ d n l vs, (step w (step w m .crash) (.boot cfg em none)).service = _ ∧ _
  cases hservice : m.service with
  | none =>
    have hcrash : step w m .crash = m := by
      unfold step
      rw [hservice]
    obtain ⟨d, n, l, vs, hboot, hbooted⟩ := boot_booted hmax h cfg em
    refine ⟨d, n, l, vs, ?_, hbooted⟩
    rw [hcrash, step_boot hservice, hboot]
  | some s =>
    have hcrash : step w m .crash = m.die := by
      unfold step
      rw [hservice]
      rfl
    obtain ⟨d, n, l, vs, hboot, hbooted⟩ := boot_booted hmax h.die cfg em
    refine ⟨d, n, l, vs, ?_, hbooted.image, hbooted.log, hbooted.running, hbooted.started,
      hbooted.data, hbooted.emitter, hbooted.disk⟩
    rw [hcrash, step_boot rfl, hboot]
    rfl

/-- Any action. -/
def anything : Machine → Action → Prop := fun _ _ => True

/-- **A restart restores what was flushed.** -/
theorem restart_restores (w : World) (hmax : 1 ≤ w.net.maxEpochBlocks) (m m' : Machine)
    (h : Reachable w anything m) (hrun : Relation.ReflTransGen (Step w anything) m m') :
    m.saved <+: m'.saved ∧ Flushed w anything m' ∧
    (∀ s, m'.service = some s →
      m'.saved <+: s.connected ∧ ∃ l, Refines w s.node l ∧ l.log = s.connected) ∧
    ∀ cfg em, ∃ d n l vs,
      (run w m' [.crash, .boot cfg em none]).service = some ⟨n, m'.saved⟩ ∧
      (d = m'.disk ∨ m'.disk = closed .empty ∧ d = genesisData w) ∧
      n.store.data = d.createEpochStore l.epoch ∧
      Refines w n l ∧ l.log = m'.saved ∧ Counted w n vs := by
  obtain ⟨hkept, hsaved⟩ := run_kept hmax (h.kept hmax) hrun
  have hreach : Reachable w anything m' := Relation.ReflTransGen.trans h hrun
  refine ⟨hsaved, hreach.flushed hmax, ?_, ?_⟩
  · intro s hs
    obtain ⟨l, vs, hrunning, hinit⟩ := hkept.service s hs
    rw [hrunning.log] at hinit
    exact ⟨hinit, l, hrunning.refines, hrunning.log⟩
  · intro cfg em
    obtain ⟨d, n, l, vs, hn, hbooted⟩ := hkept.restart hmax cfg em
    exact ⟨d, n, l, vs, hn, hbooted.disk.imp_right fun h => ⟨h.1, h.2.2⟩, hbooted.data,
      hbooted.running.refines, hbooted.log, hbooted.running.counted⟩

def bootIdle : Action := .boot sampleConfig idleEmitter none

/-- Two events; the first is flushed, the second is not. -/
def firstFlushed : List Action :=
  [bootIdle, .process (chainEvent 1) { deciding [] with flushNeeded := true }, .commit,
    .process (chainEvent 2) (deciding []), .commit]

theorem restart_restores_first :
    ∃ m n, Reachable (sampleWorld 1) anything m ∧
      m.service.map (·.connected.length) = some 2 ∧
      (run (sampleWorld 1) m [.crash, bootIdle]).service = some ⟨n, m.saved⟩ ∧
      n.store.data = m.disk.createEpochStore 1 ∧
      m.saved.map (·.id) = [(chainEvent 1).id] := by
  have hrun : (run (sampleWorld 1) .new firstFlushed).service.map (·.connected.length) = some 2 ∧
      (run (sampleWorld 1) .new firstFlushed).saved.map (·.id) = [(chainEvent 1).id] ∧
      (run (sampleWorld 1) .new firstFlushed).disk.epochState.map (·.epoch) = some 1 := by
    decide +kernel
  have hreach : Reachable (sampleWorld 1) anything (run (sampleWorld 1) .new firstFlushed) := by
    apply run_steps
    simp only [firstFlushed, List.forall_mem_cons, List.not_mem_nil, false_implies, implies_true,
      and_true]
    exact ⟨⟨trivial, fun _ => trivial⟩, ⟨rfl, fun _ => trivial⟩,
      ⟨trivial, fun _ => trivial⟩,
      ⟨rfl, fun _ => trivial⟩, trivial, fun _ => trivial⟩
  obtain ⟨d, n, l, vs, hn, hdisk, hdata, href, -⟩ :=
    (restart_restores (sampleWorld 1) (by decide) _ _ hreach .refl).2.2.2 sampleConfig idleEmitter
  generalize run (sampleWorld 1) .new firstFlushed = m at hrun hreach hn hdisk
  refine ⟨m, n, hreach, hrun.1, hn, ?_, hrun.2.1⟩
  have hepoch : d.epochState.map (·.epoch) = some l.epoch := by
    have := href.holds.epoch
    rw [hdata] at this
    exact this
  rcases hdisk with rfl | ⟨hnew, -⟩
  · rw [hdata, Option.some.inj (hepoch.symm.trans hrun.2.2)]
  · rw [hnew] at hrun
    cases hrun.2.2

/-! ## Without failing flushes -/

/-- How far the process `s` is ahead of the disk. -/
structure Level (m : Machine) (s : Sys) : Prop where
  epoch : ∃ k, m.disk.epochState.map (·.epoch) = some k ∧ epochOf (m.began s).node = some k
  lost : ∃ lost, s.connected = m.saved ++ lost ∧
    ∀ e ∈ lost, epochOf (m.began s).node = some e.epoch.toNat
  stopped : m.call = none → s.node.stopped = true → s.connected = m.saved
  pending : ∀ c, m.call = some c → c.failure = none ∧
    (c.immediately = false → s.node.stopped = false ∧ epochOf s.node = epochOf c.began.node)

theorem began_free (hfree : m.call = none) (s : Sys) : m.began s = s := by
  unfold Machine.began
  rw [hfree]

theorem began_call {c : Call} (hcall : m.call = some c) (s : Sys) : m.began s = c.began := by
  unfold Machine.began
  rw [hcall]

/-- A read changes nothing that counts. -/
theorem Level.reads (h : Level m s) (hepoch : epochOf s'.node = epochOf s.node)
    (hconn : s'.connected = s.connected) (hstop : s'.node.stopped = s.node.stopped) :
    Level (m.goOn s s') s' := by
  have hbegan : epochOf ((m.goOn s s').began s').node = epochOf (m.began s).node := by
    show epochOf (m.began s').node = _
    cases hcall : m.call with
    | none => rw [began_free hcall, began_free hcall, hepoch]
    | some c => rw [began_call hcall, began_call hcall]
  refine ⟨?_, ?_, ?_, ?_⟩
  · rw [hbegan]
    exact h.epoch
  · rw [hbegan, hconn]
    exact h.lost
  · rw [hstop, hconn]
    exact h.stopped
  · rw [hstop, hepoch]
    exact h.pending

theorem Served.level {c : Call} (h : Served w a m s s' l l') (hlevel : Level m s)
    (hfree : m.call = none) (hbegan : c.began = s) (hfailure : c.failure = none)
    (hlater : c.immediately = false → s'.node.stopped = false ∧ l'.epoch = l.epoch) :
    Level { m.goOn s s' with call := some c } s' := by
  obtain ⟨vs, hrun⟩ := h.before
  obtain ⟨vs', hrun'⟩ := h.after
  have hepoch := hlevel.epoch
  obtain ⟨lost, hlost, hin⟩ := hlevel.lost
  rw [began_free hfree] at hepoch hin
  subst hbegan
  refine ⟨hepoch, ?_, ?_, ?_⟩
  · show ∃ lost, s'.connected = m.saved ++ lost ∧ ∀ e ∈ lost, epochOf c.began.node = _
    rcases h.grows with heq | ⟨e, newEpoch, heq, he, -⟩
    · refine ⟨lost, ?_, hin⟩
      rw [← hlost, ← hrun'.log, heq, hrun.log]
    · refine ⟨lost ++ [e], ?_, ?_⟩
      · rw [← hrun'.log, heq, connect_log, hrun.log, hlost, List.append_assoc]
      · intro x hx
        rcases List.mem_append.mp hx with hx | hx
        · exact hin x hx
        · rw [List.mem_singleton.mp hx, hrun.epoch, he]
  · intro hcall
    cases hcall
  · intro c' hc'
    cases hc'
    refine ⟨hfailure, fun hlate => ⟨(hlater hlate).1, ?_⟩⟩
    rw [hrun'.epoch, hrun.epoch, (hlater hlate).2]

theorem Moves.level (h : Moves w a m m') (hkept : Kept w m) (hwrites : a.writes)
    (hlevel : ∀ s, m.service = some s → Level m s) : ∀ s, m'.service = some s →
      Level m' s := by
  cases h with
  | same => exact hlevel
  | dies => exact off_service rfl
  | boots h _ =>
    intro t ht
    cases ht
    refine ⟨⟨_, h.image.holds.epoch, h.running.epoch⟩,
      ⟨[], (List.append_nil _).symm, List.forall_mem_nil _⟩, fun _ _ => rfl, ?_⟩
    intro c hc
    cases hc
  | reads h hstop =>
    obtain ⟨vs, hrun⟩ := h.before
    obtain ⟨vs', hrun'⟩ := h.after
    intro t ht
    cases ht
    exact (hlevel _ h.service).reads (hrun'.epoch.trans hrun.epoch.symm)
      (hrun'.log.symm.trans hrun.log) hstop
  | calls h hfree hbegan hlater hfailure =>
    intro t ht
    cases ht
    exact h.level (hlevel _ h.service) hfree hbegan (hfailure hwrites) hlater
  | skips hcall hskip =>
    intro t ht
    have ht' := hlevel t ht
    obtain ⟨hfailure, hlater⟩ := ht'.pending _ hcall
    obtain ⟨hstop, hsame⟩ := hlater (hskip.resolve_right fun hne => hne hfailure)
    have hepoch := ht'.epoch
    have hlost := ht'.lost
    rw [began_call hcall, ← hsame] at hepoch hlost
    refine ⟨hepoch, hlost, ?_, ?_⟩
    · intro _ hstopped
      rw [hstop] at hstopped
      cases hstopped
    · intro c hc
      cases hc
  | flushes hs =>
    intro t ht
    cases hs.symm.trans ht
    obtain ⟨l, vs, hrun, -⟩ := hkept.service _ hs
    refine ⟨⟨l.epoch, hrun.epoch, hrun.epoch⟩,
      ⟨[], (List.append_nil _).symm, List.forall_mem_nil _⟩, fun _ _ => rfl, ?_⟩
    intro c hc
    cases hc

/-- The flushes of a run succeed. -/
def writing : Machine → Action → Prop := fun _ a => a.writes

theorem Reachable.level (hmax : 1 ≤ w.net.maxEpochBlocks) (h : Reachable w writing m) :
    ∀ s, m.service = some s → Level m s :=
  h.keeps hmax (off_service rfl) fun hkept hmoves hwrites => hmoves.level hkept hwrites

/-- **No sealed epoch is lost.** -/
theorem sealed_epochs_survive (w : World) (hmax : 1 ≤ w.net.maxEpochBlocks) (m : Machine)
    (h : Reachable w writing m) (s : Sys) (hs : m.service = some s) :
    (∃ lost, s.connected = m.saved ++ lost ∧
      (∀ e ∈ lost, epochOf (m.began s).node = some e.epoch.toNat) ∧
      (m.call = none → s.node.stopped = true → lost = [])) ∧
    ∀ cfg em, ∃ n, (run w m [.crash, .boot cfg em none]).service = some ⟨n, m.saved⟩ ∧
      epochOf n = epochOf (m.began s).node := by
  have hlevel := h.level hmax s hs
  refine ⟨?_, ?_⟩
  · obtain ⟨lost, hlost, hin⟩ := hlevel.lost
    refine ⟨lost, hlost, hin, ?_⟩
    intro hfree hstop
    have hsame := hlevel.stopped hfree hstop
    rw [hlost] at hsame
    exact List.append_right_eq_self.mp hsame
  · intro cfg em
    obtain ⟨d, n, l, vs, hn, hbooted⟩ := (Reachable.kept hmax h).restart hmax cfg em
    refine ⟨n, hn, ?_⟩
    obtain ⟨k, hdisk, hbegan⟩ := hlevel.epoch
    rcases hbooted.disk with rfl | ⟨hnew, -, -⟩
    · have hsame : some l.epoch = some k := hbooted.image.holds.epoch.symm.trans hdisk
      rw [hbegan, ← hsame]
      exact hbooted.running.epoch
    · -- the disk of a running service is not new
      rw [hnew] at hdisk
      cases hdisk

/-- An event of the epoch after the seal. -/
def laterEvent : Event :=
  let m : MutableEvent :=
    { MutableEvent.zero with epoch := 2, seq := 1, creator := 1, lamport := 3 }
  EventCodec.builtFrom (fun _ => Bytes.zero 32) m (EventWire.wire m.immutable)

/-- The second event seals the epoch. -/
def sealing : List Action :=
  [bootIdle, .process (chainEvent 1) (deciding []), .commit,
    .process (chainEvent 2) (deciding [firstBlock []])]

theorem sealing_reachable :
    Reachable (sampleWorld 1) writing (run (sampleWorld 1) .new sealing) ∧
    Reachable (sampleWorld 1) writing
      (run (sampleWorld 1) .new
        (sealing ++ [.commit, .process laterEvent (deciding []), .commit])) := by
  constructor
  · apply run_steps
    simp only [sealing, List.forall_mem_cons, List.not_mem_nil, false_implies,
      implies_true, and_true]
    exact ⟨⟨trivial, fun _ => rfl⟩, ⟨rfl, fun _ => rfl⟩,
      ⟨trivial, fun _ => trivial⟩, rfl, fun _ => rfl⟩
  · apply run_steps
    simp only [sealing, List.cons_append, List.nil_append, List.forall_mem_cons, List.not_mem_nil,
      false_implies, implies_true, and_true]
    exact ⟨⟨trivial, fun _ => rfl⟩, ⟨rfl, fun _ => rfl⟩, ⟨trivial, fun _ => trivial⟩,
      ⟨rfl, fun _ => rfl⟩, ⟨trivial, fun _ => trivial⟩, ⟨rfl, fun _ => rfl⟩,
        trivial, fun _ => trivial⟩

/-- A crash before the sealing call has committed comes up in the old epoch, a crash after
it in the new one, where an event that was not flushed is lost. -/
theorem sealed_epochs_survive_second :
    (∃ m s n, Reachable (sampleWorld 1) writing m ∧ m.service = some s ∧
      epochOf s.node = some 2 ∧ (run (sampleWorld 1) m [.crash, bootIdle]).service =
        some ⟨n, m.saved⟩ ∧
      epochOf n = some 1) ∧
    ∃ m s n, Reachable (sampleWorld 1) writing m ∧ m.service = some s ∧
      s.connected = m.saved ++ [laterEvent] ∧
      (run (sampleWorld 1) m [.crash, bootIdle]).service = some ⟨n, m.saved⟩ ∧
        epochOf n = some 2 := by
  have hrun : (∃ s ∈ (run (sampleWorld 1) .new sealing).service, epochOf s.node = some 2 ∧
      epochOf ((run (sampleWorld 1) .new sealing).began s).node = some 1) ∧
      ∃ s ∈ (run (sampleWorld 1) .new
          (sealing ++ [.commit, .process laterEvent (deciding []), .commit])).service,
        s.connected = (run (sampleWorld 1) .new
          (sealing ++ [.commit, .process laterEvent (deciding []), .commit])).saved ++
            [laterEvent] ∧
        epochOf ((run (sampleWorld 1) .new
          (sealing ++ [.commit, .process laterEvent (deciding []), .commit])).began s).node =
            some 2 := by
    decide +kernel
  obtain ⟨hinside, hafter⟩ := sealing_reachable
  generalize run (sampleWorld 1) .new sealing = m at hrun hinside
  generalize run (sampleWorld 1) .new
    (sealing ++ [.commit, .process laterEvent (deciding []), .commit]) = m₂ at hrun hafter
  obtain ⟨⟨s, hs, hepoch, hbegan⟩, s₂, hs₂, hconn, hbegan₂⟩ := hrun
  obtain ⟨n, hn, hsame⟩ :=
    (sealed_epochs_survive (sampleWorld 1) (by decide) m hinside s hs).2 sampleConfig idleEmitter
  obtain ⟨n₂, hn₂, hsame₂⟩ :=
    (sealed_epochs_survive (sampleWorld 1) (by decide) m₂ hafter s₂ hs₂).2
      sampleConfig idleEmitter
  exact ⟨⟨m, s, n, hinside, hs, hepoch, hn, hsame.trans hbegan⟩, m₂, s₂, n₂,
    hafter, hs₂, hconn, hn₂,
    hsame₂.trans hbegan₂⟩

/-! ## The numbers of the emitter -/


theorem numbered_mem_iff {log : List Event} (h : Numbered v log) (epoch k : Nat) :
    (∃ b ∈ log, b.creator = v ∧ b.epoch.toNat = epoch ∧ b.seq.toNat = k) ↔
      1 ≤ k ∧ k < nextSeq log v epoch := by
  have hmem : (∃ b ∈ log, b.creator = v ∧ b.epoch.toNat = epoch ∧ b.seq.toNat = k) ↔
      k ∈ (ownEvents log v epoch).map (·.seq.toNat) := by
    rw [List.mem_map]
    simp only [ownEvents, List.mem_filter, decide_eq_true_eq]
    constructor
    · rintro ⟨b, hb, hv, he, hk⟩
      exact ⟨b, ⟨hb, he, hv⟩, hk⟩
    · rintro ⟨b, ⟨hb, he, hv⟩, hk⟩
      exact ⟨b, hb, hv, he, hk⟩
  rw [hmem, h epoch, h.nextSeq_eq, List.mem_range'_1]
  omega

/-- The numbers that the validator has ever used have no gap. -/
structure Gapless (v : ValidatorID) (ever : List Event) : Prop where
  positive : ∀ a ∈ ever, a.creator = v → 1 ≤ a.seq.toNat
  below : ∀ a ∈ ever, a.creator = v → ∀ k, 1 ≤ k → k < a.seq.toNat →
    ∃ b ∈ ever, b.creator = v ∧ b.epoch.toNat = a.epoch.toNat ∧ b.seq.toNat = k

/-- The events of the validator are numbered without gaps, on the disk and in the process,
which belongs to it. -/
structure Own (v : ValidatorID) (m : Machine) : Prop where
  saved : Numbered v m.saved
  service : ∀ s, m.service = some s → Numbered v s.connected ∧ Configured v s.node

theorem Served.numbered (h : Served w a m s s' l l') (howned : Owned v m a)
    (hown : Numbered v s.connected ∧ Configured v s.node) : Numbered v s'.connected := by
  obtain ⟨vs, hrun⟩ := h.before
  obtain ⟨vs', hrun'⟩ := h.after
  rw [← hrun.log] at hown
  rw [← hrun'.log]
  rcases h.grows with rfl | ⟨e, newEpoch, rfl, he, hseq⟩
  · exact hown.1
  · rw [connect_log]
    apply hown.1.snoc
    rw [he]
    exact hseq v ⟨howned, hown.2⟩

theorem Moves.own (h : Moves w a m m') (howned : Owned v m a) (hown : Own v m) : Own v m' := by
  cases h with
  | same => exact hown
  | dies => exact ⟨hown.saved, off_service rfl⟩
  | boots h hem =>
    refine ⟨hown.saved, ?_⟩
    intro t ht
    cases ht
    exact ⟨hown.saved, hem v howned ▸ h.emitter⟩
  | reads h _ =>
    refine ⟨hown.saved, ?_⟩
    intro t ht
    cases ht
    have hs := hown.service _ h.service
    exact ⟨h.numbered howned hs, h.emitter v hs.2⟩
  | calls h _ _ _ _ =>
    refine ⟨hown.saved, ?_⟩
    intro t ht
    cases ht
    have hs := hown.service _ h.service
    exact ⟨h.numbered howned hs, h.emitter v hs.2⟩
  | skips _ _ => exact ⟨hown.saved, hown.service⟩
  | flushes hs => exact ⟨(hown.service _ hs).1, hown.service⟩

/-- What the machine has ever connected, seen from what it has now. -/
structure Past (v : ValidatorID) (m : Machine) : Prop where
  saved : m.saved ⊆ m.ever
  connected : ∀ s, m.service = some s → s.connected ⊆ m.ever
  gapless : Gapless v m.ever

theorem Gapless.snoc {ever log : List Event} (h : Gapless v ever)
    (hnum : Numbered v log) (hsub : log ⊆ ever)
    {e : Event} (hseq : e.creator = v → e.seq.toNat = nextSeq log v e.epoch.toNat) :
    Gapless v (ever ++ [e]) := by
  refine ⟨?_, ?_⟩
  · intro a ha hv
    rcases List.mem_append.mp ha with ha | ha
    · exact h.positive a ha hv
    · cases List.mem_singleton.mp ha
      rw [hseq hv]
      exact Nat.succ_le_succ (Nat.zero_le _)
  · intro a ha hv k hk hlt
    rcases List.mem_append.mp ha with ha | ha
    · obtain ⟨b, hb, hrest⟩ := h.below a ha hv k hk hlt
      exact ⟨b, List.mem_append_left _ hb, hrest⟩
    · cases List.mem_singleton.mp ha
      rw [hseq hv] at hlt
      obtain ⟨b, hb, hrest⟩ := (numbered_mem_iff hnum _ k).mpr ⟨hk, hlt⟩
      exact ⟨b, List.mem_append_left _ (hsub hb), hrest⟩

/-- The events that a step of the process adds. -/
theorem Served.past (h : Served w a m s s' l l') (howned : Owned v m a) (hown : Own v m)
    (hpast : Past v m) :
    m.ever ⊆ (m.goOn s s').ever ∧ s'.connected ⊆ (m.goOn s s').ever ∧
      Gapless v (m.goOn s s').ever := by
  obtain ⟨vs, hrun⟩ := h.before
  obtain ⟨vs', hrun'⟩ := h.after
  obtain ⟨hnum, hconf⟩ := hown.service s h.service
  have hsub := hpast.connected s h.service
  rcases h.grows with heq | ⟨e, newEpoch, heq, he, hseq⟩
  · have hsame : s'.connected = s.connected := by rw [← hrun'.log, heq, hrun.log]
    have hever : (m.goOn s s').ever = m.ever := by
      simp only [Machine.goOn, hsame, List.drop_length, List.append_nil]
    rw [hever, hsame]
    exact ⟨List.Subset.refl _, hsub, hpast.gapless⟩
  · have hsnoc : s'.connected = s.connected ++ [e] := by
      rw [← hrun'.log, heq, connect_log, hrun.log]
    have hever : (m.goOn s s').ever = m.ever ++ [e] := by
      simp only [Machine.goOn, hsnoc, List.drop_left]
    rw [hever, hsnoc]
    refine ⟨List.subset_append_left _ _, ?_, ?_⟩
    · exact List.append_subset.mpr
        ⟨List.Subset.trans hsub (List.subset_append_left _ _), List.subset_append_right _ _⟩
    · refine hpast.gapless.snoc hnum hsub ?_
      rw [he, ← hrun.log]
      exact hseq v ⟨howned, hconf⟩

theorem Moves.past (h : Moves w a m m') (howned : Owned v m a) (hown : Own v m)
    (hpast : Past v m) : Past v m' := by
  cases h with
  | same => exact hpast
  | dies => exact ⟨hpast.saved, off_service rfl, hpast.gapless⟩
  | boots h _ =>
    refine ⟨hpast.saved, ?_, hpast.gapless⟩
    intro t ht
    cases ht
    exact hpast.saved
  | reads h _ =>
    obtain ⟨hmore, hconn, hgap⟩ := h.past howned hown hpast
    refine ⟨List.Subset.trans hpast.saved hmore, ?_, hgap⟩
    intro t ht
    cases ht
    exact hconn
  | calls h _ _ _ _ =>
    obtain ⟨hmore, hconn, hgap⟩ := h.past howned hown hpast
    refine ⟨List.Subset.trans hpast.saved hmore, ?_, hgap⟩
    intro t ht
    cases ht
    exact hconn
  | skips _ _ => exact ⟨hpast.saved, hpast.connected, hpast.gapless⟩
  | flushes hs => exact ⟨hpast.connected _ hs, hpast.connected, hpast.gapless⟩

theorem Reachable.past (hmax : 1 ≤ w.net.maxEpochBlocks) (h : Reachable w (Owned v) m) :
    Own v m ∧ Past v m := by
  refine h.keeps (I := fun m => Own v m ∧ Past v m) hmax ?_ ?_
  · exact ⟨⟨fun _ => rfl, off_service rfl⟩, List.Subset.refl _, off_service rfl,
      List.forall_mem_nil _, List.forall_mem_nil _⟩
  · rintro m m' a - hmoves howned ⟨hown, hpast⟩
    exact ⟨hmoves.own howned hown, hmoves.past howned hown hpast⟩

/-- The validator has used no number twice. -/
def Distinct (v : ValidatorID) (ever : List Event) : Prop :=
  ∀ a ∈ ever, ∀ b ∈ ever, a.creator = v → b.creator = v → a.epoch = b.epoch →
    a.seq = b.seq → a = b

/-- **When the emitter repeats itself.** -/
theorem number_reused_iff (w : World) (hmax : 1 ≤ w.net.maxEpochBlocks) (v : ValidatorID)
    (m : Machine) (h : Reachable w (Owned v) m) (hdistinct : Distinct v m.ever) (s : Sys)
    (hs : m.service = some s) (x : Emission) (e : Event) (n : Node)
    (hemit : emitEvent w s.node x = .ok (some e, n)) :
    (∃ c ∈ m.ever, c.creator = v ∧ c.epoch = e.epoch ∧ c.seq = e.seq) ↔
      ∃ a ∈ m.ever, a.creator = v ∧ a.epoch = e.epoch ∧ a ∉ s.connected := by
  obtain ⟨l, vs, hrun, -⟩ := (Reachable.kept hmax h).service s hs
  obtain ⟨hown, hpast⟩ := h.past hmax
  obtain ⟨hnumbered, hconf⟩ := hown.service s hs
  rw [← hrun.log] at hnumbered
  have hcr : Created l v e := by
    obtain ⟨-, ⟨hnone, -⟩ | ⟨e', newEpoch, he, hcr, -⟩⟩ :=
      emitEvent_cases hrun.refines hconf hemit
    · cases hnone
    · cases he
      exact hcr
  have hnums := numbered_mem_iff hnumbered l.epoch
  constructor
  · rintro ⟨c, hc, hv, hep, hseq⟩
    refine ⟨c, hc, hv, hep, fun hmem => ?_⟩
    -- a connected event has a smaller number
    have hlt := ((hnums c.seq.toNat).mp ⟨c, by rw [hrun.log]; exact hmem, hv,
      by rw [hep, hcr.epoch], rfl⟩).2
    rw [hseq, hcr.seq] at hlt
    exact Nat.lt_irrefl _ hlt
  · rintro ⟨a, ha, hv, hep, hlost⟩
    rcases Nat.lt_trichotomy a.seq.toNat e.seq.toNat with hlt | heq | hgt
    · -- then a connected event has its number
      rw [hcr.seq] at hlt
      obtain ⟨b, hb, hbv, hbe, hbs⟩ := (hnums _).mpr ⟨hpast.gapless.positive a ha hv, hlt⟩
      rw [hrun.log] at hb
      have hsame : b.epoch = a.epoch := by
        apply UInt32.toNat_inj.mp
        rw [hbe, hep, hcr.epoch]
      have := hdistinct b (hpast.connected s hs hb) a ha hbv hv hsame (UInt32.toNat_inj.mp hbs)
      subst this
      exact absurd hb hlost
    · exact ⟨a, ha, hv, hep, UInt32.toNat_inj.mp heq⟩
    · have hpos : 1 ≤ e.seq.toNat := by
        rw [hcr.seq]
        exact Nat.succ_le_succ (Nat.zero_le _)
      obtain ⟨c, hc, hcv, hce, hcs⟩ := hpast.gapless.below a ha hv _ hpos hgt
      exact ⟨c, hc, hcv, (UInt32.toNat_inj.mp hce).trans hep, UInt32.toNat_inj.mp hcs⟩

/-- The first event was not flushed: after a crash the validator emits another first event. -/
theorem number_reused_iff_crash :
    ∃ m s e n, Reachable (sampleWorld 1) (Owned 1) m ∧ m.service = some s ∧
      emitEvent (sampleWorld 1) s.node { sampleEmission with now := 6 } = .ok (some e, n) ∧
      ∃ c ∈ m.ever, c.creator = 1 ∧ c.epoch = e.epoch ∧ c.seq = e.seq ∧ c ≠ e := by
  let boot : Action := .boot sampleConfig ownEmitter none
  let acts : List Action := [boot, .emit sampleEmission, .crash, boot]
  have hrun : (run (sampleWorld 1) .new acts).ever.map (fun e => (e.creator, e.epoch, e.rawTime)) =
    [(1, 1, 5)] ∧
      ((run (sampleWorld 1) .new acts).service.bind fun s =>
        (emitEvent (sampleWorld 1) s.node { sampleEmission with now := 6 }).toOption.map fun p =>
          (s.connected, p.1.map fun e => (e.epoch, e.rawTime))) =
            some ([], some (1, 6)) := by decide +kernel
  have hreach : Reachable (sampleWorld 1) (Owned 1) (run (sampleWorld 1) .new acts) := by
    apply run_steps
    simp only [acts, List.forall_mem_cons, List.not_mem_nil, false_implies, implies_true, and_true]
    exact ⟨⟨trivial, fun _ => rfl⟩, ⟨trivial, fun _ => trivial⟩,
      ⟨trivial, fun _ => trivial⟩, trivial,
      fun _ => rfl⟩
  obtain ⟨a, hever, hfields⟩ := List.map_eq_singleton_iff.mp hrun.1
  obtain ⟨s, hs, hemit⟩ := Option.bind_eq_some_iff.mp hrun.2
  obtain ⟨⟨r, n⟩, hemit, hrest⟩ := Option.map_eq_some_iff.mp hemit
  obtain ⟨e, rfl, he⟩ := Option.map_eq_some_iff.mp (congrArg Prod.snd hrest)
  have hconn : s.connected = [] := congrArg Prod.fst hrest
  have hemit := toOption_eq_some hemit
  have hdistinct : Distinct 1 (run (sampleWorld 1) .new acts).ever := by
    intro x hx y hy _ _ _ _
    rw [hever, List.mem_singleton] at hx hy
    rw [hx, hy]
  have hepoch : a.epoch = e.epoch :=
    (congrArg (·.2.1) hfields).trans (congrArg Prod.fst he).symm
  obtain ⟨c, hc, hcv, hce, hcs⟩ :=
    (number_reused_iff (sampleWorld 1) (by decide) 1 _ hreach hdistinct s hs
    _ e n hemit).mpr ⟨a, by rw [hever]; exact List.mem_singleton_self a,
      congrArg Prod.fst hfields, hepoch,
      by rw [hconn]; exact List.not_mem_nil⟩
  refine ⟨_, s, e, n, hreach, hs, hemit, c, hc, hcv, hce, hcs, ?_⟩
  rintro rfl
  rw [hever, List.mem_singleton] at hc
  subst hc
  have : (5 : UInt64) = 6 := (congrArg (·.2.2) hfields).symm.trans (congrArg Prod.snd he)
  exact absurd this (by decide)

end MiniOpera.Restart
