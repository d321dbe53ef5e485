import MiniOpera.PeerSessions

/-!
# What holds of the sessions in every interleaving

`Orderly` is kept by every step: a peer in the set belongs to a session that has not
removed it yet, its `term` is open, and once a session is over the `term` of its
peer is closed. `pm.wg` counts the sessions between `Add` and `Done` only, and a
session may be received by `syncer` and not be counted when `Stop` waits; it cannot
register any more, so that nothing is handled after `Stop` has returned
(`shutdown_quiet`).
-/

namespace MiniOpera.SessionShutdown
open Threads PeerSessions

/-! ## The invariant -/

/-- The call of `removePeer` of a session is for the session's own ID. -/
def Removal.Own (id : String) : Removal → Prop
  | .lookup id' => id' = id
  | .unregister id' _ => id' = id
  | _ => True

/-- What the peer set, `term` and the goroutine of `broadcast` are for a session. -/
structure SessionOk (peers : List (String × Nat)) (i : Nat) (ses : Session) : Prop where
  early : ses.pc.early = true → ses.term = false ∧ ses.broadcast = .absent
  busy : ses.pc.busy = true → ses.broadcast ≠ .absent
  started : ses.broadcast ≠ .absent → (ses.id, i) ∈ peers ∨ ses.term = true
  listed : (ses.id, i) ∈ peers → ses.pc.active = true ∧ ses.term = false
  own : ∀ r, ses.pc = .removing r → Removal.Own ses.id r

structure Orderly (s : System) : Prop where
  fine : s.panicked = false
  session : ∀ i ses, s.sessions[i]? = some ses → SessionOk s.set.peers i ses
  entry : ∀ id i, (id, i) ∈ s.set.peers → ∃ ses, s.sessions[i]? = some ses ∧ ses.id = id
  wg : s.wg = s.sessions.countP fun ses => ses.pc.counted
  syncer : s.syncer = true ↔ s.phase = .started ∨ s.phase = .stopping
  closed : s.set.closed = true ↔ s.phase = .waiting ∨ s.phase = .returned
  quiet : s.phase = .returned → ∀ ses ∈ s.sessions, ses.pc.busy = false

theorem active_busy {pc : Pc} (h : pc.active = true) : pc.busy = true := by
  cases pc with
  | removing r => rfl
  | serving => rfl
  | _ => cases h

theorem busy_counted {pc : Pc} (h : pc.busy = true) : pc.counted = true := by
  cases pc with
  | removing r => rfl
  | serving => rfl
  | _ => cases h

theorem early_not_active {pc : Pc} (h : pc.early = true) : pc.active = false := by
  cases pc with
  | removing r => cases h
  | _ => first | rfl | cases h

section SessionOk

variable {peers peers' : List (String × Nat)} {i : Nat} {ses : Session}

theorem SessionOk.congr (h : SessionOk peers i ses)
    (hiff : (ses.id, i) ∈ peers' ↔ (ses.id, i) ∈ peers) : SessionOk peers' i ses where
  early := h.early
  busy := h.busy
  started hb := by rw [hiff]; exact h.started hb
  listed hl := h.listed (hiff.mp hl)
  own := h.own

/-- A session in which only the program counter changes. -/
theorem SessionOk.goto (h : SessionOk peers i ses) {pc : Pc}
    (hearly : pc.early = true → ses.pc.early = true)
    (hbusy : pc.busy = true → ses.pc.busy = true)
    (hlisted : (ses.id, i) ∈ peers → pc.active = true)
    (hown : ∀ r, pc = .removing r → Removal.Own ses.id r) :
    SessionOk peers i { ses with pc := pc } where
  early hp := h.early (hearly hp)
  busy hp := h.busy (hbusy hp)
  started := h.started
  listed hl := ⟨hlisted hl, (h.listed hl).2⟩
  own := hown

theorem SessionOk.not_listed (h : SessionOk peers i ses) (hpc : ses.pc.active = false) :
    (ses.id, i) ∉ peers := by
  intro hl
  rw [(h.listed hl).1] at hpc
  cases hpc

end SessionOk

/-! ## Steps -/

section Steps

variable {s s' : System} {i : Nat} {ses : Session}

theorem Orderly.peers_nil (h : Orderly s) (hbusy : ∀ ses ∈ s.sessions, ses.pc.busy = false) :
    s.set.peers = [] := by
  refine List.eq_nil_iff_forall_not_mem.mpr fun ⟨id, i⟩ hmem => ?_
  obtain ⟨ses, hses, rfl⟩ := h.entry id i hmem
  have hactive := active_busy ((h.session i ses hses).listed hmem).1
  rw [hbusy ses (List.mem_of_getElem? hses)] at hactive
  cases hactive

/-- One session changes, and the peer set in what concerns that session. -/
theorem Orderly.update (h : Orderly s) (hi : s.sessions[i]? = some ses) {f : Session → Session}
    {set : PeerSet} {wg : Int} (hclosed : set.closed = s.set.closed) (hid : (f ses).id = ses.id)
    (hok : SessionOk set.peers i (f ses))
    (hothers : ∀ j ses', j ≠ i → s.sessions[j]? = some ses' →
      ((ses'.id, j) ∈ set.peers ↔ (ses'.id, j) ∈ s.set.peers))
    (hentry : ∀ id j, (id, j) ∈ set.peers → (id, j) ∈ s.set.peers ∨
      (id = ses.id ∧ j = i))
    (hbusy : (f ses).pc.busy = true → ses.pc.busy = true ∨ s.phase ≠ .returned)
    (hwg : wg + ses.pc.counted.toNat = s.wg + (f ses).pc.counted.toNat) :
    Orderly { s.update i f with set := set, wg := wg } where
  fine := h.fine
  session j ses' hj := by
    obtain ⟨rfl, a, ha, rfl⟩ | ⟨hne, hj⟩ := modify_cases hj
    · rw [hi] at ha
      cases ha
      exact hok
    · exact (h.session j ses' hj).congr (hothers j ses' hne hj)
  entry id j hmem := by
    by_cases hj : j = i
    · subst hj
      refine ⟨_, modify_self hi, hid.trans ?_⟩
      rcases hentry id j hmem with hold | ⟨rfl, -⟩
      · obtain ⟨a, ha, rfl⟩ := h.entry id j hold
        rw [hi] at ha
        cases ha
        rfl
      · rfl
    · rcases hentry id j hmem with hold | ⟨-, rfl⟩
      · obtain ⟨ses', hses', hid'⟩ := h.entry id j hold
        exact ⟨ses', (modify_of_ne hj).trans hses', hid'⟩
      · exact absurd rfl hj
  wg := by
    have hcount := countP_modify (f := f) (fun ses => ses.pc.counted) hi
    have hsum := h.wg
    show wg = ((s.sessions.modify i f).countP _ : Nat)
    omega
  syncer := h.syncer
  closed := by
    show set.closed = true ↔ _
    rw [hclosed]
    exact h.closed
  quiet hphase ses' hmem := by
    obtain ⟨j, hj⟩ := List.mem_iff_getElem?.mp hmem
    obtain ⟨rfl, a, ha, rfl⟩ | ⟨-, hj⟩ := modify_cases hj
    · rw [hi] at ha
      cases ha
      refine Bool.eq_false_iff.mpr fun hb => ?_
      rcases hbusy hb with hold | hne
      · rw [h.quiet hphase ses (List.mem_of_getElem? hi)] at hold
        cases hold
      · exact hne hphase
    · exact h.quiet hphase ses' (List.mem_of_getElem? hj)

/-- The session `i` moves on. -/
theorem Orderly.goto (h : Orderly s) (hi : s.sessions[i]? = some ses) {pc : Pc} {wg : Int}
    (hok : SessionOk s.set.peers i { ses with pc := pc })
    (hbusy : pc.busy = true → ses.pc.busy = true)
    (hwg : wg + ses.pc.counted.toNat = s.wg + pc.counted.toNat) :
    Orderly { s.goto i pc with wg := wg } :=
  h.update (f := fun ses => { ses with pc := pc }) hi rfl rfl hok (fun _ _ _ _ => .rfl)
    (fun _ _ => .inl) (fun hb => .inl (hbusy hb)) hwg

/-- A session moves whose peer is not in the set. -/
theorem Orderly.pass (h : Orderly s) {pc₀ pc : Pc}
    (hat : s.sessionAt i pc₀ = some ses) {wg : Int}
    (hearly : pc.early = true → pc₀.early = true) (hbusy : pc.busy = false)
    (hactive : pc₀.active = false) (hwg : wg + pc₀.counted.toNat = s.wg + pc.counted.toNat) :
    Orderly { s.goto i pc with wg := wg } := by
  obtain ⟨hi, rfl⟩ := sessionAt_eq hat
  have hok := h.session i ses hi
  have hidle : ¬ pc.busy = true := by rw [hbusy]; simp
  refine h.goto hi (hok.goto hearly (fun hb => absurd hb hidle) ?_ ?_)
    (fun hb => absurd hb hidle) hwg
  · intro hl
    exact absurd hl (hok.not_listed hactive)
  · rintro r rfl
    exact absurd rfl hidle

/-- A flag changes that the invariant does not speak about. -/
theorem Orderly.flag (h : Orderly s) (i : Nat) {f : Session → Session}
    (hpc : ∀ ses, (f ses).pc = ses.pc) (hid : ∀ ses, (f ses).id = ses.id)
    (hterm : ∀ ses, (f ses).term = ses.term)
    (hbroadcast : ∀ ses, (f ses).broadcast = .absent ↔ ses.broadcast = .absent) :
    Orderly (s.update i f) := by
  cases hi : s.sessions[i]? with
  | none =>
    have hsame : s.update i f = s := by
      rw [System.update, List.modify_eq_self (List.getElem?_eq_none_iff.mp hi)]
    rw [hsame]
    exact h
  | some ses =>
    have hok := h.session i ses hi
    refine h.update hi rfl (hid ses) ⟨?_, ?_, ?_, ?_, ?_⟩
      (fun _ _ _ _ => .rfl) (fun _ _ => .inl)
      (by rw [hpc]; exact .inl) (by rw [hpc])
    · rw [hpc, hterm, hbroadcast]
      exact hok.early
    · rw [hpc, ne_eq, hbroadcast]
      exact hok.busy
    · rw [hid, hterm, ne_eq, hbroadcast]
      exact hok.started
    · rw [hid, hpc, hterm]
      exact hok.listed
    · rw [hid, hpc]
      exact hok.own

/-- The phase of `Start` and `Stop` changes, before `Close` or after it. -/
theorem Orderly.phased (h : Orderly s) {phase : Phase} {maxPeers : Nat} {syncer quitSync : Bool}
    (hsyncer : syncer = true ↔ phase = .started ∨ phase = .stopping)
    (hclosed : (s.phase = .waiting ∨ s.phase = .returned) ↔
      (phase = .waiting ∨ phase = .returned))
    (hquiet : phase = .returned → ∀ ses ∈ s.sessions, ses.pc.busy = false) :
    Orderly { s with phase := phase, maxPeers := maxPeers, syncer := syncer, quitSync := quitSync }
      where
  fine := h.fine
  session := h.session
  entry := h.entry
  wg := h.wg
  syncer := hsyncer
  closed := h.closed.trans hclosed
  quiet := hquiet

theorem Orderly.arrive (h : Orderly s) (id : String) (trusted : Bool) :
    Orderly { s with sessions := s.sessions ++ [newSession id trusted] } where
  fine := h.fine
  session j ses hj := by
    rcases snoc_cases hj with ⟨rfl, rfl⟩ | ⟨-, hj⟩
    · refine ⟨fun _ => ⟨rfl, rfl⟩, fun hb => (by cases hb), fun hb =>
        absurd rfl hb, fun hl => ?_,
        fun r hr => (by cases hr)⟩
      obtain ⟨ses, hses, -⟩ := h.entry _ _ hl
      rw [List.getElem?_eq_none (Nat.le_refl _)] at hses
      cases hses
    · exact h.session j ses hj
  entry id' j hmem := by
    obtain ⟨ses, hses, hid⟩ := h.entry id' j hmem
    obtain ⟨hlt, -⟩ := List.getElem?_eq_some_iff.mp hses
    exact ⟨ses, (List.getElem?_append_left hlt).trans hses, hid⟩
  wg := by
    rw [h.wg, List.countP_append]
    simp [newSession, Pc.counted]
  syncer := h.syncer
  closed := h.closed
  quiet hphase ses hmem := by
    rcases List.mem_append.mp hmem with hmem | hmem
    · exact h.quiet hphase ses hmem
    · rw [List.mem_singleton.mp hmem]
      rfl

/-- `Register` starts the goroutine of `broadcast`. -/
theorem Orderly.register (h : Orderly s) (hi : s.sessions[i]? = some ses)
    (hpc : ses.pc = .registering)
    {set : PeerSet} (hset : s.set.register ses.id i = .ok set) :
    Orderly { s.update i fun ses => { ses with pc := .serving, broadcast := .running } with
      set := set } := by
  obtain ⟨hopen, -, hclosed, hpeers⟩ := PeerSet.register_ok hset
  have hterm := ((h.session i ses hi).early (by rw [hpc]; rfl)).1
  have hphase : s.phase ≠ .returned := by
    intro hreturned
    rw [h.closed.mpr (.inr hreturned)] at hopen
    cases hopen
  refine h.update (f := fun ses => { ses with pc := .serving, broadcast := .running }) hi
    (hclosed.trans hopen.symm) rfl ⟨?_, ?_, ?_, ?_, ?_⟩ ?_ ?_ (fun _ => .inr hphase)
      (by rw [hpc]; rfl)
  · intro he
    cases he
  · intro _ hb
    cases hb
  · intro _
    rw [hpeers]
    exact .inl List.mem_cons_self
  · intro _
    exact ⟨rfl, hterm⟩
  · intro r hr
    cases hr
  · intro j ses' hne _
    rw [hpeers, List.mem_cons]
    refine ⟨fun hor => hor.resolve_left fun heq => hne (Prod.mk.inj heq).2, .inr⟩
  · intro id j hmem
    rw [hpeers, List.mem_cons] at hmem
    exact hmem.elim (fun heq => .inr (Prod.mk.inj heq)) .inl

/-- `Unregister` closes the `term` of the peer that it removes, which was open. -/
theorem Orderly.unregister (h : Orderly s) {id : String} {p : Nat} {set : PeerSet}
    (hset : s.set.unregister id = .ok (p, set)) :
    s.termOf p = false ∧
      Orderly { s.update p fun ses => { ses with term := true } with set := set } := by
  obtain ⟨hmem, hclosed, hpeers⟩ := PeerSet.unregister_ok hset
  obtain ⟨ses, hp, rfl⟩ := h.entry id p hmem
  have hok := h.session p ses hp
  obtain ⟨hactive, hterm⟩ := hok.listed hmem
  have hbusy := hok.busy (active_busy hactive)
  refine ⟨by rw [System.termOf, hp]; exact hterm, ?_⟩
  refine h.update (f := fun ses => { ses with term := true }) hp hclosed rfl
    ⟨?_, fun _ => hbusy, fun _ => .inr rfl, ?_, hok.own⟩ ?_ ?_ .inl rfl
  · intro he
    rw [early_not_active he] at hactive
    cases hactive
  · intro hl
    rw [hpeers] at hl
    simp at hl
  · intro j ses' hne _
    rw [hpeers, List.mem_filter]
    refine ⟨And.left, fun hl => ⟨hl, ?_⟩⟩
    -- the key of the removed entry has one entry only
    refine decide_eq_true fun heq => hne ?_
    have hid : ses'.id = ses.id := heq
    rw [hid] at hl
    have hone := PeerSet.peer_eq_some.mpr hl
    rw [PeerSet.peer_eq_some.mpr hmem] at hone
    exact (Option.some.inj hone).symm
  · intro id j hl
    rw [hpeers] at hl
    exact .inl (List.mem_filter.mp hl).1

theorem Orderly.advance (h : Orderly s) {r r' : Removal} (hadv : Advances s r s' r') :
    Orderly s' := by
  cases hadv with
  | absent => exact h
  | found => exact h
  | free => exact h
  | removed hset =>
    obtain ⟨hterm, hs'⟩ := h.unregister hset
    rw [hterm, ← h.fine]
    exact hs'
  | disconnected => exact h.flag _ (fun _ => rfl) (fun _ => rfl) (fun _ => rfl) (fun _ => .rfl)

/-- A session goes on in its own `removePeer`, and is through with it at the end. -/
theorem Orderly.remove (h : Orderly s) (hi : s.sessions[i]? = some ses) {r r' : Removal}
    (hpc : ses.pc = .removing r) (hadv : Advances s r s' r') :
    Orderly (s'.goto i (if r' = .finished then .leaving else .removing r')) := by
  have hs' := h.advance hadv
  obtain ⟨ses', hi', hpc', hid'⟩ := hadv.same hi
  rw [hpc] at hpc'
  have hown : Removal.Own ses'.id r := hid' ▸ (h.session i ses hi).own r hpc
  have hok' := hs'.session i ses' hi'
  have hmove : ∀ {pc : Pc}, pc.early = false → pc.counted = true →
      ((ses'.id, i) ∈ s'.set.peers → pc.active = true) →
      (∀ r, pc = .removing r → Removal.Own ses'.id r) → Orderly (s'.goto i pc) := by
    intro pc hearly hcounted hlisted hown
    have hb : ses'.pc.busy = true := by rw [hpc']; rfl
    refine hs'.goto hi' (hok'.goto ?_ (fun _ => hb) hlisted hown) (fun _ => hb) ?_
    · intro he
      rw [hearly] at he
      cases he
    · rw [hpc', hcounted]
      rfl
  cases hadv with
  | absent hfree =>
    obtain rfl : _ = ses'.id := hown
    exact hmove rfl rfl (fun hl => absurd (List.mem_map_of_mem hl) hfree) fun r hr => by cases hr
  | found =>
    refine hmove rfl rfl (fun _ => rfl) fun r hr => ?_
    cases hr
    exact hown
  | free hfree =>
    obtain rfl : _ = ses'.id := hown
    refine hmove rfl rfl (fun hl => absurd (List.mem_map_of_mem hl) hfree) fun r hr => ?_
    cases hr
    exact trivial
  | removed hset =>
    obtain rfl : _ = ses'.id := hown
    refine hmove rfl rfl (fun hl => ?_) fun r hr => ?_
    · have hl : _ ∈ PeerSet.peers _ := hl
      rw [(PeerSet.unregister_ok hset).2.2] at hl
      simp at hl
    · cases hr
      exact trivial
  | disconnected =>
    refine hmove rfl rfl (fun hl => absurd hl (hok'.not_listed ?_)) fun r hr => by cases hr
    rw [hpc']
    rfl

/-- `Close` disconnects the peers of the set and leaves them in it. -/
theorem Orderly.closePeers (h : Orderly s) (hphase : s.phase = .quitting) :
    Orderly { s with phase := .waiting, set := s.set.close, sessions := s.disconnectPeers } where
  fine := h.fine
  session j ses hj := by
    have hj : s.disconnectPeers[j]? = some ses := hj
    rw [disconnectPeers_get] at hj
    obtain ⟨a, ha, rfl⟩ := Option.map_eq_some_iff.mp hj
    have hok := h.session j a ha
    split
    · exact ⟨hok.early, hok.busy, hok.started, hok.listed, hok.own⟩
    · exact hok
  entry id j hmem := by
    obtain ⟨ses, hses, hid⟩ := h.entry id j hmem
    refine ⟨_, (disconnectPeers_get s j).trans (by rw [hses]; rfl), ?_⟩
    dsimp only
    split <;> exact hid
  wg := by
    have hcount : s.disconnectPeers.countP _ = s.sessions.countP fun ses => ses.pc.counted :=
      countP_congr_map (disconnectPeers_map fun _ => rfl)
    exact h.wg.trans (congrArg Nat.cast hcount.symm)
  syncer := by
    have := h.syncer
    rw [hphase] at this
    simpa using this
  closed := by simp [PeerSet.close]
  quiet hreturned := by cases hreturned

theorem orderly_init : Orderly System.init where
  fine := rfl
  session i ses hi := by cases hi
  entry id i hmem := by cases hmem
  wg := rfl
  syncer := by simp [System.init]
  closed := by simp [System.init, PeerSet.newPeerSet]
  quiet hphase := by cases hphase

theorem Orderly.done (h : Orderly s) (hat : s.sessionAt i .leaving = some ses) :
    Orderly { s.goto i .gone with wg := s.wg - 1, panicked := s.wg - 1 < 0 } := by
  obtain ⟨hi, hpc⟩ := sessionAt_eq hat
  have hpos : 0 < s.sessions.countP fun ses => ses.pc.counted :=
    List.countP_pos_iff.mpr ⟨ses, List.mem_of_getElem? hi, by rw [hpc]; rfl⟩
  have hfine : decide (s.wg - 1 < 0) = s.panicked := by
    rw [h.fine, h.wg]
    exact decide_eq_false (by omega)
  rw [hfine]
  refine h.pass hat (fun he => by cases he) rfl rfl ?_
  show s.wg - 1 + 1 = s.wg + 0
  omega

theorem Orderly.failed (h : Orderly s) (hat : s.sessionAt i .serving = some ses) :
    Orderly (s.goto i (.removing (.lookup ses.id))) := by
  obtain ⟨hi, hpc⟩ := sessionAt_eq hat
  have hb : ses.pc.busy = true := by rw [hpc]; rfl
  refine h.goto hi ((h.session i ses hi).goto (fun he => by cases he)
    (fun _ => hb) (fun _ => rfl) ?_)
    (fun _ => hb) (by rw [hpc]; rfl)
  intro r hr
  cases hr
  exact rfl

/-- The goroutine of `broadcast` ends. -/
theorem Orderly.endBroadcast (h : Orderly s) (hi : s.sessions[i]? = some ses)
    (hrunning : ses.broadcast = .running) :
    Orderly (s.update i fun ses => { ses with broadcast := .ended }) := by
  have hok := h.session i ses hi
  have hb : ses.broadcast ≠ .absent := by rw [hrunning]; simp
  refine h.update (f := fun ses => { ses with broadcast := .ended }) hi rfl rfl
    ⟨fun he => absurd (hok.early he).2 hb, ?_, fun _ => hok.started hb, hok.listed, hok.own⟩
    (fun _ _ _ _ => .rfl) (fun _ _ => .inl) .inl rfl
  intro _ hended
  cases hended

/-- No session is counted when `Wait` returns, and the busy ones are. -/
theorem Orderly.wait (h : Orderly s) (hphase : s.phase = .waiting) (hzero : s.wg = 0) :
    Orderly { s with phase := .returned } := by
  refine h.phased (h.syncer.trans (by simp [hphase])) (by simp [hphase]) fun _ ses hmem => ?_
  refine Bool.eq_false_iff.mpr fun hb => ?_
  have hpos : 0 < s.sessions.countP fun ses => ses.pc.counted :=
    List.countP_pos_iff.mpr ⟨ses, hmem, busy_counted hb⟩
  have := h.wg
  omega

theorem Orderly.turn (h : Orderly s) {action : Action} {phase : Phase} {maxPeers : Nat}
    {syncer quitSync : Bool} (hturn : Turns s action phase maxPeers syncer quitSync) :
    Orderly { s with
      phase := phase
      maxPeers := maxPeers
      syncer := syncer
      quitSync := quitSync } := by
  cases hturn with
  | start hphase => exact h.phased (by simp) (by simp [hphase]) (fun hp => by cases hp)
  | stop hphase =>
    exact h.phased (h.syncer.trans (by simp [hphase])) (by simp [hphase]) (fun hp => by cases hp)
  | refusePeers hphase => exact h.phased (by simp) (by simp [hphase]) (fun hp => by cases hp)
  | closeQuit hphase =>
    exact h.phased (h.syncer.trans (by simp [hphase])) (by simp [hphase]) (fun hp => by cases hp)
  | wait hphase hzero => exact h.wait hphase hzero

theorem moves_orderly (h : Orderly s) {action : Action} (hmove : Moves s action s') :
    Orderly s' := by
  cases hmove with
  | turn hturn => exact h.turn hturn
  | arrive => exact h.arrive _ _
  | pass hat hpass =>
    exact h.pass hat (fun _ => hpass.early) hpass.idle (early_not_active hpass.early) hpass.wg_eq
  | registered hat hset =>
    obtain ⟨hi, hpc⟩ := sessionAt_eq hat
    exact h.register hi hpc hset
  | handled => exact h
  | failed hat => exact h.failed hat
  | remove hat hadv =>
    obtain ⟨hi, hpc⟩ := sessionAt_eq hat
    exact h.remove hi hpc hadv
  | done hat => exact h.done hat
  | misbehave => exact ⟨h.fine, h.session, h.entry, h.wg, h.syncer, h.closed, h.quiet⟩
  | proceed _ hadv =>
    have ht := h.advance hadv
    exact ⟨ht.fine, ht.session, ht.entry, ht.wg, ht.syncer, ht.closed, ht.quiet⟩
  | endBroadcast hi hrunning => exact h.endBroadcast hi hrunning
  | closePeers hphase => exact h.closePeers hphase

theorem step_orderly (h : Orderly s) {action : Action} (hstep : s.step action = some s') :
    Orderly s' :=
  moves_orderly h (step_moves hstep)

end Steps

/-! ## Runs -/

section Runs

variable {s s' : System} {l : List Action}

theorem run_orderly (h : run System.step System.init l = some s) : Orderly s :=
  run_keeps (fun _ _ _ hs hstep => step_orderly hs hstep) orderly_init h

theorem advances_phase {r r' : Removal} (h : Advances s r s' r') : s'.phase = s.phase := by
  cases h <;> rfl

/-- `Stop` returns once. -/
theorem step_returned {action : Action} (hphase : s.phase = .returned)
    (hstep : s.step action = some s') : s'.phase = .returned := by
  have hother : ∀ phase, phase ≠ .returned → s.phase ≠ phase := by
    rintro _ hne rfl
    exact hne hphase
  cases step_moves hstep with
  | turn hturn =>
    cases hturn with
    | start h => exact absurd h (hother _ (by simp))
    | stop h => exact absurd h (hother _ (by simp))
    | refusePeers h => exact absurd h (hother _ (by simp))
    | closeQuit h => exact absurd h (hother _ (by simp))
    | wait => rfl
  | remove _ hadv => exact (advances_phase hadv).trans hphase
  | proceed _ hadv => exact (advances_phase hadv).trans hphase
  | closePeers h => exact absurd h (hother _ (by simp))
  | _ => exact hphase

/-- In every interleaving no `term` is closed twice, a peer is in the set exactly as long
as its goroutine has not been told to end, and a session is over only when it has been
told. -/
theorem peers_ended_once (h : run System.step System.init l = some s) :
    s.panicked = false ∧
    (∀ id p, s.set.peer id = some p → ∃ ses, s.sessions[p]? = some ses ∧ ses.id = id ∧
      ses.pc.active = true ∧ ses.broadcast ≠ .absent ∧ ses.term = false) ∧
    (∀ i ses, s.sessions[i]? = some ses → ses.broadcast ≠ .absent →
      (ses.term = true ↔ s.set.peer ses.id ≠ some i)) ∧
    (∀ ses ∈ s.sessions, ses.pc = .leaving ∨ ses.pc = .gone → ses.broadcast ≠ .absent →
      ses.term = true) := by
  have ho := run_orderly h
  have hended : ∀ i ses, s.sessions[i]? = some ses → ses.broadcast ≠ .absent →
      (ses.term = true ↔ s.set.peer ses.id ≠ some i) := by
    intro i ses hi hb
    have hok := ho.session i ses hi
    rw [ne_eq, PeerSet.peer_eq_some]
    constructor
    · intro hterm hl
      rw [(hok.listed hl).2] at hterm
      cases hterm
    · intro hl
      exact (hok.started hb).resolve_left hl
  refine ⟨ho.fine, ?_, hended, ?_⟩
  · intro id p hp
    obtain ⟨ses, hses, rfl⟩ := ho.entry id p (PeerSet.peer_eq_some.mp hp)
    have hok := ho.session p ses hses
    obtain ⟨hactive, hterm⟩ := hok.listed (PeerSet.peer_eq_some.mp hp)
    exact ⟨ses, hses, rfl, hactive, hok.busy (active_busy hactive), hterm⟩
  · intro ses hmem hpc hb
    obtain ⟨i, hi⟩ := List.mem_iff_getElem?.mp hmem
    refine (hended i ses hi hb).mpr fun hp => ?_
    refine (ho.session i ses hi).not_listed ?_ (PeerSet.peer_eq_some.mp hp)
    rcases hpc with hpc | hpc <;> rw [hpc] <;> rfl

/-- The peer is found by the fetcher and by its own session, both remove it, then `Stop`. -/
def removedTwice : List Action :=
  [.start 1, .arrive "a" false, .announce 0, .count 0, .check 0, .shaken 0 true, .register 0,
    .misbehave "a", .proceed 0, .message 0 false, .remove 0, .remove 0, .proceed 0, .remove 0,
    .proceed 0, .endBroadcast 0, .done 0, .arrive "b" false, .announce 1, .stop, .refusePeers,
    .closeQuit, .closePeers, .wait]

theorem peers_ended_once_removedTwice :
    ∃ s, run System.step System.init removedTwice = some s ∧ s.panicked = false ∧
      ∀ ses ∈ s.sessions, ses.pc = .leaving ∨ ses.pc = .gone → ses.broadcast ≠ .absent →
        ses.term = true := by
  have hrun : (run System.step System.init removedTwice).isSome = true := by decide +kernel
  obtain ⟨s, hs⟩ := Option.isSome_iff_exists.mp hrun
  obtain ⟨hfine, -, -, hleft⟩ := peers_ended_once hs
  exact ⟨s, hs, hfine, hleft⟩

/-- After `Stop` has returned the peer set is empty and stays so, and no session handles a
message, also of those that `syncer` received and that were not counted yet. -/
theorem shutdown_quiet (h : run System.step System.init l = some s)
    (hreturned : s.phase = .returned)
    {more : List Action} (hmore : run System.step s more = some s') :
    s'.set.peers = [] ∧ (∀ ses ∈ s'.sessions, ses.pc.busy = false) ∧
      ∀ i ok, s'.step (.message i ok) = none := by
  obtain ⟨ho, hphase⟩ := run_keeps (I := fun s => Orderly s ∧ s.phase = .returned)
    (fun _ _ _ hs hstep => ⟨step_orderly hs.1 hstep, step_returned hs.2 hstep⟩)
    ⟨run_orderly h, hreturned⟩ hmore
  have hquiet := ho.quiet hphase
  refine ⟨ho.peers_nil hquiet, hquiet, fun i ok => ?_⟩
  refine Option.eq_none_iff_forall_ne_some.mpr fun t ht => ?_
  obtain ⟨-, hmove⟩ := Option.ite_none_left_eq_some.mp ht
  obtain ⟨ses, hat, -⟩ := Option.map_eq_some_iff.mp hmove
  obtain ⟨hi, hpc⟩ := sessionAt_eq hat
  have hidle := hquiet ses (List.mem_of_getElem? hi)
  rw [hpc] at hidle
  cases hidle

/-- The second session is counted after `Stop` has returned, and is turned away. -/
theorem shutdown_quiet_removedTwice :
    ∃ s s', run System.step System.init removedTwice = some s ∧ s.phase = .returned ∧
      run System.step s [.count 1, .check 1, .shaken 1 true, .register 1, .done 1] = some s' ∧
      s'.set.peers = [] := by
  have hphase : (run System.step System.init removedTwice).map System.phase = some .returned := by
    decide +kernel
  obtain ⟨s, hs, hreturned⟩ := Option.map_eq_some_iff.mp hphase
  have hmore : ((run System.step System.init removedTwice).bind fun s =>
      run System.step s [.count 1, .check 1, .shaken 1 true, .register 1, .done 1]).isSome =
        true := by
    decide +kernel
  rw [hs] at hmore
  obtain ⟨s', hs'⟩ := Option.isSome_iff_exists.mp hmore
  exact ⟨s, s', hs, hreturned, hs', (shutdown_quiet hs hreturned hs').1⟩

end Runs

end MiniOpera.SessionShutdown
